import Mathlib.Data.List.Forall2
import Statechart.Checkpoint.Json
import Statechart.Proofs.JsonText
import Statechart.Proofs.Stamp
import Statechart.Proofs.Traversal

/-!
A checkpoint is read back from its JSON text. Spread over lines, a text still spells one document:
blanks stand only where they are passed over, and what is quoted has its escapes. What a document
means to the reader of a record is found field by field, as no two fields have one name.
-/
namespace Statechart.Json

open Value (newline)

variable {v : Value} {d : Document} {vs : List Value} {ds : List Document}
variable {fs : List (String × Value)} {gs : List (List Char × Document)}
variable {level n : Nat} {rest : List Char}

/-! ### Text spread over lines -/

/-- The characters between the quotes. -/
def escaped (s : String) : List Char := s.toList.flatMap escape

theorem skipBlanks_newline (level : Nat) (cs : List Char) :
    skipBlanks (newline level ++ cs) = skipBlanks cs := by
  rw [skipBlanks, List.dropWhile_append_of_pos]
  · rfl
  · intro c hc
    rcases List.mem_cons.mp hc with rfl | hc
    · rfl
    · rw [List.eq_of_mem_replicate hc]
      rfl

theorem Numeral.ends_comma (cs : List Char) : Numeral.Ends (',' :: cs) := (Follows.comma cs).ends

theorem Numeral.ends_newline (level : Nat) (cs : List Char) :
    Numeral.Ends (newline level ++ cs) := by
  rintro c hc
  obtain rfl : c = '\n' := by simpa [newline] using hc.symm
  decide

theorem Document.read?_skipBlanks {cs cs' : List Char} (h : skipBlanks cs = skipBlanks cs') :
    read? n cs = read? n cs' := by
  cases n with
  | zero => rfl
  | succ n => rw [read?, read?, h]

theorem Document.readItems?_skipBlanks {cs cs' : List Char} (h : skipBlanks cs = skipBlanks cs') :
    readItems? n cs = readItems? n cs' := by
  cases n with
  | zero => rfl
  | succ n => rw [readItems?, readItems?, read?_skipBlanks h]

theorem Document.readFields?_skipBlanks {cs cs' : List Char} (h : skipBlanks cs = skipBlanks cs') :
    readFields? n cs = readFields? n cs' := by
  cases n with
  | zero => rfl
  | succ n => rw [readFields?, readFields?, h]

/-- The value's text, on whatever level, is read as the document. -/
structure Value.Spells (v : Value) (d : Document) : Prop where
  head (level : Nat) : ∃ c cs, v.printSpread level = c :: cs ∧ isBlank c = false ∧ c ≠ ']'
  read (level n : Nat) (rest : List Char) (hrest : Numeral.Ends rest)
    (hn : 2 * (v.printSpread level).length ≤ n + 1) :
    Document.read? (n + 1) (v.printSpread level ++ rest) = some (d, rest)

namespace Value

/-- The key stands between quotes too. -/
def SpellsField (f : String × Value) (g : List Char × Document) : Prop :=
  g.1 = escaped f.1 ∧ f.2.Spells g.2

theorem spells_null : Spells .null .null where
  head _ := ⟨_, _, rfl, by decide⟩
  read level n rest _ _ := by
    simp [printSpread, Document.read?, skipBlanks_of_head, isBlank, Document.word?]

theorem spells_text (s : String) : Spells (.text s) (.text (escaped s)) where
  head _ := ⟨_, _, rfl, by decide⟩
  read _ n rest _ _ := Document.read?_quote n s rest

theorem spells_integer (i : Int) : Spells (.number (.integer i))
    (.number ⟨decide (i < 0), (Nat.toDigits 10 i.natAbs).map digitValue, none, none⟩) where
  head _ := by
    obtain ⟨c, cs, hcs, hc⟩ := exists_print_integer i
    exact ⟨c, cs, hcs, not_blank_of_numeral hc⟩
  read level n rest hrest _ := by
    obtain ⟨c, cs, hcs, hc⟩ := exists_print_integer i
    have hread := read?_toDigits i.natAbs hrest (decide (i < 0))
    simp only [decide_eq_true_eq] at hread
    rw [printSpread, hcs, List.cons_append, Document.read?_numeral hc, ← List.cons_append, ← hcs,
      Number.print, hread, Option.map_some]

/-- The items up to the closing bracket, which stands on a line of its own. -/
theorem readItems?_spread (level : Nat) (rest : List Char) (hv : v.Spells d)
    (hvs : List.Forall₂ Spells vs ds)
    (hn : 2 * (printSpread (level + 1) v ++ printSpreadItems level vs).length ≤ n) :
    Document.readItems? n (printSpread (level + 1) v ++ printSpreadItems level vs ++ rest) =
      some (d :: ds, rest) := by
  induction hvs generalizing v d n with
  | nil =>
    simp only [printSpreadItems, List.length_append, List.length_singleton] at hn
    obtain ⟨n, rfl⟩ : ∃ k, n = k + 2 := ⟨n - 2, by omega⟩
    have hread := hv.read (level + 1) n (newline level ++ ']' :: rest)
      (Numeral.ends_newline level _) (by omega)
    have hclose : skipBlanks (newline level ++ ']' :: rest) = ']' :: rest := by
      rw [skipBlanks_newline, skipBlanks_of_head (by decide)]
    simp only [printSpreadItems, List.append_assoc, List.singleton_append, Document.readItems?,
      hread, hclose]
  | @cons w e vs ds hw _ ih =>
    simp only [printSpreadItems, List.length_append, List.length_cons] at hn
    obtain ⟨n, rfl⟩ : ∃ k, n = k + 2 := ⟨n - 2, by omega⟩
    have hread := hv.read (level + 1) n (',' :: (newline (level + 1) ++
      (printSpread (level + 1) w ++ printSpreadItems level vs ++ rest))) (Numeral.ends_comma _)
      (by omega)
    have hreads := ih hw (n := n + 1) (by simp only [List.length_append]; omega)
    rw [← Document.readItems?_skipBlanks (skipBlanks_newline (level + 1) _)] at hreads
    have hcomma (cs : List Char) : skipBlanks (',' :: cs) = ',' :: cs :=
      skipBlanks_of_head (by decide)
    simp only [printSpreadItems, List.append_assoc, List.cons_append] at hread hreads ⊢
    rw [Document.readItems?, hread]
    simp only [hcomma, hreads, Option.map_some]

/-- The fields up to the closing brace, each with a blank after its colon. -/
theorem readFields?_spread (level : Nat) (rest : List Char) {f : String × Value}
    {g : List Char × Document} (hf : SpellsField f g) (hfs : List.Forall₂ SpellsField fs gs)
    (hn : 2 * (quote f.1 ++ ':' :: ' ' ::
      (printSpread (level + 1) f.2 ++ printSpreadFields level fs)).length ≤ n) :
    Document.readFields? n (quote f.1 ++ ':' :: ' ' ::
      (printSpread (level + 1) f.2 ++ printSpreadFields level fs ++ rest)) =
        some (g :: gs, rest) := by
  have hblank (cs : List Char) : skipBlanks (' ' :: cs) = skipBlanks cs := rfl
  induction hfs generalizing f g n with
  | nil =>
    obtain ⟨k, d⟩ := g
    obtain ⟨rfl, hd⟩ : k = escaped f.1 ∧ f.2.Spells d := hf
    simp only [printSpreadFields, List.length_append, List.length_cons, List.length_nil] at hn
    obtain ⟨n, rfl⟩ : ∃ k, n = k + 2 := ⟨n - 2, by omega⟩
    have hread := hd.read (level + 1) n (newline level ++ '\x7d' :: rest)
      (Numeral.ends_newline level _) (by omega)
    have hclose : skipBlanks (newline level ++ '\x7d' :: rest) = '\x7d' :: rest := by
      rw [skipBlanks_newline, skipBlanks_of_head (by decide)]
    rw [← Document.read?_skipBlanks (hblank _)] at hread
    simp only [printSpreadFields, List.append_assoc, List.singleton_append]
    exact Document.readFields?_last hread hclose
  | @cons e h fs gs he _ ih =>
    obtain ⟨k, d⟩ := g
    obtain ⟨rfl, hd⟩ : k = escaped f.1 ∧ f.2.Spells d := hf
    simp only [printSpreadFields, List.length_append, List.length_cons] at hn
    obtain ⟨n, rfl⟩ : ∃ k, n = k + 2 := ⟨n - 2, by omega⟩
    have hread := hd.read (level + 1) n (',' :: (newline (level + 1) ++ (quote e.1 ++ ':' :: ' ' ::
      (printSpread (level + 1) e.2 ++ printSpreadFields level fs ++ rest)))) (Numeral.ends_comma _)
      (by omega)
    have hreads := ih he (n := n + 1) (by simp only [List.length_append, List.length_cons]; omega)
    rw [← Document.read?_skipBlanks (hblank _)] at hread
    rw [← Document.readFields?_skipBlanks (skipBlanks_newline (level + 1) _)] at hreads
    simp only [printSpreadFields, List.append_assoc, List.cons_append] at hread hreads ⊢
    rw [Document.readFields?_more hread (skipBlanks_of_head (by decide)), hreads, Option.map_some]
    rfl

theorem spells_array (h : List.Forall₂ Spells vs ds) : Spells (.array vs) (.array ds) where
  head level := by cases vs <;> exact ⟨_, _, rfl, by decide⟩
  read level n rest _ hn := by
    cases h with
    | nil => simp [printSpread, Document.read?, skipBlanks_of_head, isBlank]
    | @cons v d vs ds hv hvs =>
      simp only [printSpread, List.length_cons, List.length_append] at hn
      have hreads := readItems?_spread level rest hv hvs (n := n)
        (by simp only [List.length_append]; omega)
      obtain ⟨c, cs, hcs, hblank, hc⟩ := hv.head (level + 1)
      rw [hcs] at hreads
      rw [printSpread, hcs]
      simp only [List.append_assoc, List.cons_append] at hreads ⊢
      refine Document.read?_items ?_ hc hreads
      rw [skipBlanks_newline, skipBlanks_of_head hblank]

theorem spells_object (h : List.Forall₂ SpellsField fs gs) :
    Spells (.object fs) (.object gs) where
  head level := by cases fs <;> exact ⟨_, _, rfl, by decide⟩
  read level n rest _ hn := by
    cases h with
    | nil => simp [printSpread, Document.read?, skipBlanks_of_head, isBlank]
    | @cons f g fs gs hf hfs =>
      simp only [printSpread, List.length_cons, List.length_append] at hn
      have hreads := readFields?_spread level rest hf hfs (n := n)
        (by simp only [List.length_append, List.length_cons]; omega)
      rw [printSpread]
      simp only [List.append_assoc, List.cons_append, Document.quote_append] at hreads ⊢
      refine Document.read?_fields ?_ hreads
      rw [skipBlanks_newline, skipBlanks_quote]

end Value

/-! ### What a document means to a reader -/

section Meaning

variable {α : Type} {of? : Document → Option α} {item : α → Value} {x : α} {xs : List α}
variable {s : String}

/-- The value's text is read as a document that the reader takes for this. -/
def Value.Conveys (v : Value) (of? : Document → Option α) (x : α) : Prop :=
  ∃ d, v.Spells d ∧ of? d = some x

theorem Document.string?_text (s : String) : Document.string? (.text (escaped s)) = some s :=
  Json.string?_escaped s

/-- A string that another text is read from. -/
theorem conveys_text {read? : String → Option α} (h : read? s = some x) :
    (Value.text s).Conveys (fun d => d.string?.bind read?) x :=
  ⟨_, Value.spells_text s, (congrArg (·.bind read?) (Document.string?_text s)).trans h⟩

theorem conveys_string (s : String) : (Value.text s).Conveys Document.string? s :=
  ⟨_, Value.spells_text s, Document.string?_text s⟩

theorem conveys_name {named : String → Option α} (h : named s = some x) :
    (Value.text s).Conveys (Document.oneOf? named) x := by
  refine ⟨_, Value.spells_text s, ?_⟩
  rw [Document.oneOf?, escaped, string?_escaped, Option.bind_some, h]

theorem conveys_natural {limit : Nat} (hn : n < limit) (hlimit : limit ≤ greatestUnsigned) :
    (Value.natural n).Conveys (Document.natural? limit) n := by
  have hfits : Fits n := ⟨by omega, by omega⟩
  refine ⟨_, Value.spells_integer n, ?_⟩
  rw [Document.natural?, number?_toDigits hfits]
  exact if_pos ⟨by omega, by omega⟩

theorem conveys_list (h : ∀ x ∈ xs, (item x).Conveys of? x) :
    (Value.array (xs.map item)).Conveys (Document.list? of?) xs :=
  have ⟨ds, hall, hmap⟩ := exists_forall₂_of_mapM h
  ⟨.array ds, Value.spells_array hall, hmap⟩

theorem conveys_texts (ss : List String) :
    (Value.texts ss).Conveys (Document.list? Document.string?) ss :=
  conveys_list fun s _ => conveys_string s

/-- An absent text is spelled as `null`. -/
theorem conveys_optional (o : Option String) :
    (match o with | some text => Value.text text | none => .null).Conveys
      (fun d => Document.optional? Document.string? (some d)) o := by
  cases o with
  | none => exact ⟨_, Value.spells_null, rfl⟩
  | some text =>
    exact ⟨_, Value.spells_text text, congrArg (Option.map some) (Document.string?_text text)⟩

end Meaning

namespace Document

variable {fields : List (String × Document)}

/-- A document with these fields. -/
def ofFields (fields : List (String × Document)) : Document :=
  .object (fields.map fun f => (escaped f.1, f.2))

/-- Of fields with different names, the one that is asked for is the only one of its name. -/
theorem filter_eq_of_nodup (h : (fields.map (·.1)).Nodup) {f : String × Document}
    (hf : f ∈ fields) : fields.filter (·.1 == f.1) = [f] := by
  induction fields with
  | nil => simp at hf
  | cons g fields ih =>
    obtain ⟨hg, hrest⟩ := List.nodup_cons.mp h
    rcases List.mem_cons.mp hf with rfl | hf
    · have hnone : fields.filter (·.1 == f.1) = [] := by
        refine List.filter_eq_nil_iff.mpr fun e he heq => hg ?_
        exact List.mem_map.mpr ⟨e, he, by simpa using heq⟩
      rw [List.filter_cons_of_pos (by simp), hnone]
    · have hne : g.1 ≠ f.1 := fun heq => hg (List.mem_map.mpr ⟨f, hf, heq.symm⟩)
      rw [List.filter_cons_of_neg (by simpa using hne), ih hrest hf]

theorem record?_ofFields {names : List String} (hnames : fields.map (·.1) = names)
    (h : names.Nodup) : (ofFields fields).record? names = some (fields.map fun f => some f.2) := by
  subst hnames
  have hkeys : (fields.map fun f => (escaped f.1, f.2)).mapM
      (fun f => (Json.string? f.1).map (·, f.2)) = some fields := by
    rw [mapM_eq_some_iff, List.forall₂_map_left_iff, List.forall₂_same]
    intro f _
    rw [escaped, string?_escaped]
    rfl
  rw [ofFields, record?, pick?, hkeys, Option.bind_eq_bind, Option.bind_some, mapM_eq_some_iff,
    List.forall₂_map_left_iff, List.forall₂_map_right_iff, List.forall₂_same]
  intro f hf
  rw [filter_eq_of_nodup h hf]

end Document

end Statechart.Json

namespace Statechart

open Json Document

theorem Origin.named_name (origin : Origin) : Origin.named origin.name = some origin := by
  cases origin <;> rfl

theorem Status.named_name (status : Status) : Status.named status.name = some status := by
  cases status <;> rfl

theorem SavedEvent.conveys (e : SavedEvent) : e.toJson.Conveys SavedEvent.ofDocument? e := by
  obtain ⟨name, hname, hname?⟩ := conveys_string e.name
  obtain ⟨origin, horigin, horigin?⟩ := conveys_name e.origin.named_name
  obtain ⟨payload, hpayload, (hpayload? : optional? Document.string? (some payload) = _)⟩ :=
    conveys_optional e.payload
  let fields := [("name", name), ("origin", origin), ("payload", payload)]
  have hrecord : (ofFields fields).record? ["name", "origin", "payload"] =
      some [some name, some origin, some payload] := record?_ofFields rfl (by decide)
  refine ⟨ofFields fields, Value.spells_object ?_, ?_⟩
  · exact .cons ⟨rfl, hname⟩ (.cons ⟨rfl, horigin⟩ (.cons ⟨rfl, hpayload⟩ .nil))
  · exact (bind_of_eq_some hrecord).trans <| (bind_of_eq_some hname?).trans <|
      (bind_of_eq_some horigin?).trans <| (bind_of_eq_some hpayload?).trans rfl

namespace Checkpoint

variable {c : Checkpoint}

/-- The records are written in the order of their names, and so come back as they were. -/
theorem conveys_history (m : OrderedMap String (List String)) :
    (Value.object (m.entries.map fun (h, ss) => (h, .texts ss))).Conveys history? m := by
  have hentry (e : String × List String) (_ : e ∈ m.entries) : ∃ g : List Char × Document,
      Value.SpellsField (e.1, .texts e.2) g ∧ historyEntry? g = some e := by
    obtain ⟨d, hspells, hstates⟩ := conveys_texts e.2
    exact ⟨(escaped e.1, d), ⟨rfl, hspells⟩,
      (bind_of_eq_some hstates).trans <| (bind_of_eq_some (string?_escaped e.1)).trans rfl⟩
  obtain ⟨gs, hall, hmap⟩ := exists_forall₂_of_mapM hentry
  refine ⟨.object gs, Value.spells_object hall, ?_⟩
  rw [history?, hmap, Option.map_some, OrderedMap.ext (OrderedMap.entries_ofWrites m.ascending)]

/-- Every field is written under its name, and read as what it was. -/
theorem conveys (hyear : 0 ≤ c.timestamp.date.year ∧ c.timestamp.date.year ≤ 9999)
    (hnanos : c.timestamp.nanos < 1000000000) : c.toValue.Conveys ofDocument? c := by
  have hfits : c.version.toNat < Nat.pow 2 32 := c.version.toNat_lt
  obtain ⟨version, hversion, hversion?⟩ := conveys_natural hfits (by decide)
  obtain ⟨id, hid, (hid? : id.string?.bind Uuid.ofString? = _)⟩ :=
    conveys_text c.id.ofString?_toString
  obtain ⟨timestamp, htimestamp, (htimestamp? : timestamp.string?.bind Timestamp.ofString? = _)⟩ :=
    conveys_text (Timestamp.ofString?_toString hyear hnanos)
  obtain ⟨chart, hchart, hchart?⟩ := conveys_string c.chart
  obtain ⟨session, hsession, (hsession? : session.string?.bind Uuid.ofString? = _)⟩ :=
    conveys_text c.session.ofString?_toString
  obtain ⟨status, hstatus, hstatus?⟩ := conveys_name c.status.named_name
  obtain ⟨active, hactive, hactive?⟩ := conveys_texts c.active
  obtain ⟨history, hhistory, hhistory?⟩ := conveys_history c.history
  obtain ⟨internal, hinternal, hinternal?⟩ := conveys_list fun e (_ : e ∈ c.internal) => e.conveys
  obtain ⟨external, hexternal, hexternal?⟩ := conveys_list fun e (_ : e ∈ c.external) => e.conveys
  let fields := [("version", version), ("id", id), ("timestamp", timestamp), ("chart", chart),
    ("session_id", session), ("status", status), ("active", active), ("history", history),
    ("internal", internal), ("external", external)]
  have hrecord : (ofFields fields).record? fieldNames = some [some version, some id,
      some timestamp, some chart, some session, some status, some active, some history,
      some internal, some external] := record?_ofFields rfl (by decide)
  refine ⟨ofFields fields, Value.spells_object ?_, ?_⟩
  · exact .cons ⟨rfl, hversion⟩ <| .cons ⟨rfl, hid⟩ <| .cons ⟨rfl, htimestamp⟩ <|
      .cons ⟨rfl, hchart⟩ <| .cons ⟨rfl, hsession⟩ <| .cons ⟨rfl, hstatus⟩ <|
      .cons ⟨rfl, hactive⟩ <| .cons ⟨rfl, hhistory⟩ <| .cons ⟨rfl, hinternal⟩ <|
      .cons ⟨rfl, hexternal⟩ .nil
  · have hsame : { c with version := UInt32.ofNat c.version.toNat } = c := by
      rw [UInt32.ofNat_toNat]
    exact (bind_of_eq_some hrecord).trans <| (bind_of_eq_some hversion?).trans <|
      (bind_of_eq_some hid?).trans <| (bind_of_eq_some htimestamp?).trans <|
      (bind_of_eq_some hchart?).trans <| (bind_of_eq_some hsession?).trans <|
      (bind_of_eq_some hstatus?).trans <| (bind_of_eq_some hactive?).trans <|
      (bind_of_eq_some hhistory?).trans <| (bind_of_eq_some hinternal?).trans <|
      (bind_of_eq_some hexternal?).trans (congrArg some hsame)

/-- A checkpoint is read from its text, whatever its names and payloads are, unless it is of another
version than the one that is read. -/
theorem read_back_from_text (hyear : 0 ≤ c.timestamp.date.year ∧ c.timestamp.date.year ≤ 9999)
    (hnanos : c.timestamp.nanos < 1000000000) :
    (c.version = checkpointVersion → fromJson c.toJson = .ok c) ∧
      (c.version ≠ checkpointVersion →
        fromJson c.toJson = .error (.unsupportedVersion c.version)) := by
  obtain ⟨d, hspells, hd⟩ := conveys hyear hnanos
  have hread := hspells.read 0 (2 * (c.toValue.printSpread 0).length + 1) []
    (by simp [Numeral.Ends]) (by omega)
  rw [List.append_nil] at hread
  have hparse : parse? c.toJson = some c := by
    simp only [parse?, Document.parse?, toJson, Value.spread, String.toList_ofList, hread]
    exact hd
  rw [fromJson, hparse]
  exact ⟨fun h => if_pos h, fun h => if_neg h⟩

/-- Names with a quotation mark, a line break, and a character beyond the first plane. -/
def quoted : Checkpoint where
  version := checkpointVersion
  id := Uuid.nil
  timestamp := ⟨⟨0, 12, 31, by decide⟩, 86399, 999999999, by decide⟩
  chart := "say \"hello\""
  session := Uuid.nil
  status := .awaitingExternal
  active := ["first\nsecond", "😀"]
  history := OrderedMap.ofWrites [("é", ["😀"]), ("h\\", [])]
  internal := [⟨"", .internal, none⟩]
  external := [⟨"\t", .external, some "\"\\u0000\""⟩]

theorem quoted_read_back : ((0 ≤ quoted.timestamp.date.year ∧ quoted.timestamp.date.year ≤ 9999) ∧
    quoted.timestamp.nanos < 1000000000) ∧
    (quoted.version = checkpointVersion → fromJson quoted.toJson = .ok quoted) ∧
      (quoted.version ≠ checkpointVersion →
        fromJson quoted.toJson = .error (.unsupportedVersion quoted.version)) := by
  have hyear : 0 ≤ quoted.timestamp.date.year ∧ quoted.timestamp.date.year ≤ 9999 := by decide
  have hnanos : quoted.timestamp.nanos < 1000000000 := by decide
  exact ⟨⟨hyear, hnanos⟩, read_back_from_text hyear hnanos⟩

end Checkpoint

end Statechart
