import Statechart.Json.Printer
import Statechart.Json.Reader
import Statechart.Proofs.Writing

/-!
JSON values that survive their text. A value of whole numbers, whose objects have their keys in
order and which nests no deeper than a reader allows, is read back from its compact text. The
reading is told in front of every text that may follow, as parts of a value are followed by commas
and brackets.
-/
namespace Statechart.Json

/-! ### Strings -/

theorem hexValue?_hexDigit : ∀ n < 16, hexValue? (hexDigit n) = some n := by decide

/-- The three ways of writing a character. -/
theorem escape_cases (c : Char) :
    (∃ e ∈ ['"', '\\', 'b', 'f', 'n', 'r', 't'], escape c = ['\\', e] ∧ shortEscape e = c) ∨
      (c.toNat < 32 ∧
        escape c = ['\\', 'u', '0', '0', hexDigit (c.toNat / 16), hexDigit (c.toNat % 16)]) ∨
      (c ≠ '"' ∧ c ≠ '\\' ∧ 32 ≤ c.toNat ∧ escape c = [c]) := by
  have short (e : Char) (he : e ∈ ['"', '\\', 'b', 'f', 'n', 'r', 't'])
      (h : escape (shortEscape e) = ['\\', e]) (hc : c = shortEscape e) :
      ∃ e ∈ ['"', '\\', 'b', 'f', 'n', 'r', 't'], escape c = ['\\', e] ∧ shortEscape e = c :=
    ⟨e, he, hc ▸ h, hc.symm⟩
  by_cases hquote : c = '"'
  · exact .inl (short '"' (by simp) rfl hquote)
  by_cases hbackslash : c = '\\'
  · exact .inl (short '\\' (by simp) rfl hbackslash)
  by_cases hb : c = '\x08'
  · exact .inl (short 'b' (by simp) rfl hb)
  by_cases hf : c = '\x0c'
  · exact .inl (short 'f' (by simp) rfl hf)
  by_cases hn : c = '\n'
  · exact .inl (short 'n' (by simp) rfl hn)
  by_cases hr : c = '\r'
  · exact .inl (short 'r' (by simp) rfl hr)
  by_cases ht : c = '\t'
  · exact .inl (short 't' (by simp) rfl ht)
  have hescape : escape c = if c.toNat < 32 then
      ['\\', 'u', '0', '0', hexDigit (c.toNat / 16), hexDigit (c.toNat % 16)] else [c] := by
    rw [escape, if_neg hquote, if_neg hbackslash, if_neg hb, if_neg hf, if_neg hn, if_neg hr,
      if_neg ht]
  by_cases hlow : c.toNat < 32
  · exact .inr (.inl ⟨hlow, by rw [hescape, if_pos hlow]⟩)
  · exact .inr (.inr ⟨hquote, hbackslash, by omega, by rw [hescape, if_neg hlow]⟩)

theorem body?_escape (c : Char) (cs : List Char) :
    body? (escape c ++ cs) = (body? cs).map fun r => (escape c ++ r.1, r.2) := by
  rcases escape_cases c with ⟨e, he, hescape, -⟩ | ⟨hc, hescape⟩ | ⟨hquote, hbackslash, hc, hescape⟩
  · rw [hescape]
    simp only [List.mem_cons, List.not_mem_nil, or_false] at he
    rcases he with rfl | rfl | rfl | rfl | rfl | rfl | rfl <;> rfl
  · have hhigh := hexValue?_hexDigit (c.toNat / 16) (by omega)
    have hlow := hexValue?_hexDigit (c.toNat % 16) (by omega)
    have hhex : (isHex '0' && isHex '0' && isHex (hexDigit (c.toNat / 16)) &&
        isHex (hexDigit (c.toNat % 16))) = true := by
      simp only [isHex, hhigh, hlow, Option.isSome_some, Bool.and_true]
      decide
    rw [hescape]
    exact if_pos hhex
  · have hplain : ¬(c = '\\' ∨ c.toNat < 32) := not_or.mpr ⟨hbackslash, by omega⟩
    rw [hescape, List.singleton_append, body?.eq_def]
    split
    case h_5 heq =>
      obtain ⟨rfl, rfl⟩ := List.cons.inj heq
      rw [if_neg hplain]
      rfl
    all_goals simp_all

theorem body?_quoted (cs rest : List Char) :
    body? (cs.flatMap escape ++ '"' :: rest) = some (cs.flatMap escape, rest) := by
  induction cs with
  | nil => rfl
  | cons c cs ih => rw [List.flatMap_cons, List.append_assoc, body?_escape, ih, Option.map_some]

theorem unescape?_escape (c : Char) (cs : List Char) :
    unescape? (escape c ++ cs) = (unescape? cs).map (c :: ·) := by
  rcases escape_cases c with ⟨e, he, hescape, rfl⟩ | ⟨hc, hescape⟩ | ⟨-, hbackslash, -, hescape⟩
  · rw [hescape]
    simp only [List.mem_cons, List.not_mem_nil, or_false] at he
    rcases he with rfl | rfl | rfl | rfl | rfl | rfl | rfl <;> rfl
  · have hhex :
        hexNumber ['0', '0', hexDigit (c.toNat / 16), hexDigit (c.toNat % 16)] = c.toNat := by
      have hhigh := hexValue?_hexDigit (c.toNat / 16) (by omega)
      have hlow := hexValue?_hexDigit (c.toNat % 16) (by omega)
      have hzero : hexValue? '0' = some 0 := by decide
      simp only [hexNumber, List.foldl_cons, List.foldl_nil, hhigh, hlow, hzero, Option.getD_some]
      omega
    rw [hescape]
    simp only [List.cons_append, List.nil_append]
    rw [unescape?.eq_def]
    simp only [hhex]
    rw [if_neg (by omega), if_neg (by omega), Char.ofNat_toNat]
  · rw [hescape, List.singleton_append, unescape?.eq_def]
    split <;> simp_all

theorem string?_escaped (s : String) : string? (s.toList.flatMap escape) = some s := by
  have unescaped (cs : List Char) : unescape? (cs.flatMap escape) = some cs := by
    induction cs with
    | nil => rfl
    | cons c cs ih => simp [unescape?_escape, ih]
  rw [string?, unescaped, Option.map_some, String.ofList_toList]

/-! ### Numerals -/

/-- What may follow a value: nothing, a comma, or a closing bracket. -/
def Follows (rest : List Char) : Prop :=
  ∀ c ∈ rest.head?, c = ',' ∨ c = ']' ∨ c = '\x7d'

/-- The text does not go on with what could belong to the number before it. -/
def Numeral.Ends (rest : List Char) : Prop :=
  ∀ c ∈ rest.head?, c.isDigit = false ∧ c ≠ '.' ∧ c ≠ 'e' ∧ c ≠ 'E'

theorem Follows.ends {rest : List Char} (h : Follows rest) : Numeral.Ends rest := by
  intro c hc
  rcases h c hc with rfl | rfl | rfl <;> decide

theorem digitValue_digitChar : ∀ n < 10, digitValue (Nat.digitChar n) = n := by decide

/-- No number but zero is written with a zero in front. -/
theorem exists_toDigits {n : Nat} (hn : 0 < n) :
    ∃ c cs, Nat.toDigits 10 n = c :: cs ∧ digitValue c ≠ 0 := by
  induction n using Nat.strongRecOn with
  | _ n ih =>
    by_cases h : n < 10
    · exact ⟨n.digitChar, [], Nat.toDigits_of_lt_base h, by rw [digitValue_digitChar n h]; omega⟩
    · obtain ⟨c, cs, hcs, hc⟩ := ih (n / 10) (by omega) (by omega)
      exact ⟨c, cs ++ [(n % 10).digitChar],
        by rw [Nat.toDigits_of_base_le (by omega) (by omega), hcs, List.cons_append], hc⟩

theorem takeDigits_toDigits (n : Nat) {rest : List Char} (h : Numeral.Ends rest) :
    takeDigits (Nat.toDigits 10 n ++ rest) = ((Nat.toDigits 10 n).map digitValue, rest) := by
  have hdigit (c : Char) (hc : c ∈ Nat.toDigits 10 n) : c.isDigit = true :=
    Nat.isDigit_of_mem_toDigits (by omega) (by omega) hc
  have hstop (c : Char) (hc : c ∈ rest.head?) : ¬c.isDigit = true := by simp [(h c hc).1]
  rw [takeDigits, List.takeWhile_append_of_pos hdigit, List.dropWhile_append_of_pos hdigit]
  cases rest with
  | nil => simp
  | cons c rest => simp [hstop c (by simp)]

theorem whole?_toDigits (n : Nat) {rest : List Char} (h : Numeral.Ends rest) :
    Numeral.whole? (Nat.toDigits 10 n ++ rest) =
      some ((Nat.toDigits 10 n).map digitValue, rest) := by
  rw [Numeral.whole?, takeDigits_toDigits n h]
  rcases Nat.eq_zero_or_pos n with rfl | hn
  · rfl
  · obtain ⟨c, cs, hcs, hc⟩ := exists_toDigits hn
    rw [hcs, List.map_cons]
    split <;> simp_all

/-- Digits of a number that fits 64 bits are all taken in. -/
theorem significand_of_le {ds : List Nat} {start : Nat}
    (h : ds.foldl (fun n d => n * 10 + d) start ≤ greatestUnsigned) :
    significand start ds = (ds.foldl (fun n d => n * 10 + d) start, []) := by
  have grows (ds : List Nat) (start : Nat) : start ≤ ds.foldl (fun n d => n * 10 + d) start := by
    induction ds generalizing start with
    | nil => exact Nat.le_refl _
    | cons d ds ih => exact Nat.le_trans (by omega) (ih (start * 10 + d))
  induction ds generalizing start with
  | nil => rfl
  | cons d ds ih => rw [significand, if_pos (Nat.le_trans (grows ds _) h), ih h, List.foldl_cons]

theorem significand_toDigits {n : Nat} (hn : n ≤ greatestUnsigned) :
    significand 0 ((Nat.toDigits 10 n).map digitValue) = (n, []) := by
  have hvalue : ((Nat.toDigits 10 n).map digitValue).foldl (fun n d => n * 10 + d) 0 = n := by
    simp only [List.foldl_map, Nat.mul_comm _ 10]
    exact Nat.ofDigitChars_toDigits (by omega) (by omega)
  rw [significand_of_le (by rw [hvalue]; exact hn), hvalue]

/-- Whole numbers of 64 bits, signed or unsigned. -/
def Fits (i : Int) : Prop := -(Nat.pow 2 63 : Int) ≤ i ∧ i ≤ greatestUnsigned

theorem read?_toDigits (n : Nat) {rest : List Char} (h : Numeral.Ends rest) (negative : Bool) :
    Numeral.read? ((if negative then ['-'] else []) ++ Nat.toDigits 10 n ++ rest) =
      some (⟨negative, (Nat.toDigits 10 n).map digitValue, none, none⟩, rest) := by
  have hsign : takeSign ((if negative then ['-'] else []) ++ Nat.toDigits 10 n ++ rest) =
      (negative, Nat.toDigits 10 n ++ rest) := by
    cases negative with
    | true => rfl
    | false =>
      obtain ⟨c, cs, hcs⟩ := List.exists_cons_of_ne_nil (@Nat.toDigits_ne_nil n 10)
      have hdigit : c.isDigit = true :=
        Nat.isDigit_of_mem_toDigits (b := 10) (by omega) (by omega) (hcs ▸ List.mem_cons_self)
      have hminus : c ≠ '-' := by rintro rfl; exact absurd hdigit (by decide)
      rw [if_neg (by simp), List.nil_append, hcs, List.cons_append, takeSign.eq_def]
      split <;> simp_all
  have hrest : Numeral.fraction? rest = some (none, rest) ∧
      Numeral.exponent? rest = some (none, rest) := by
    cases rest with
    | nil => exact ⟨rfl, rfl⟩
    | cons c rest =>
      obtain ⟨-, hpoint, he, hE⟩ := h c (by simp)
      refine ⟨?_, by rw [Numeral.exponent?, if_neg (not_or.mpr ⟨he, hE⟩)]⟩
      rw [Numeral.fraction?.eq_def]
      split <;> simp_all
  simp only [Numeral.read?, hsign, whole?_toDigits n h, hrest, Option.bind_eq_bind,
    Option.bind_some]

theorem number?_toDigits {i : Int} (h : Fits i) :
    Numeral.number? ⟨decide (i < 0), (Nat.toDigits 10 i.natAbs).map digitValue, none, none⟩ =
      some (.integer i) := by
  have hn : i.natAbs ≤ greatestUnsigned := by
    obtain ⟨hlow, hhigh⟩ := h
    have : Nat.pow 2 63 ≤ greatestUnsigned := by decide
    omega
  simp only [Numeral.number?, significand_toDigits hn]
  rw [if_neg (by simp)]
  rcases Int.lt_or_le i 0 with hneg | hpos
  · have hbound : 0 < i.natAbs ∧ i.natAbs ≤ Nat.pow 2 63 := by
      have := h.1
      omega
    rw [if_neg (by simp [hneg]), if_pos hbound, Int.ofNat_natAbs_of_nonpos (by omega), Int.neg_neg]
  · rw [if_pos (by simp [hpos]), Int.natAbs_of_nonneg hpos]

/-! ### Values -/

/-- Whole numbers only, each of 64 bits, and objects with their keys in order. -/
inductive Value.Whole : Value → Prop where
  | null : Whole .null
  | bool (b : Bool) : Whole (.bool b)
  | integer {i : Int} (h : Fits i) : Whole (.number (.integer i))
  | text (s : String) : Whole (.text s)
  | array {vs : List Value} (h : ∀ v ∈ vs, Whole v) : Whole (.array vs)
  | object {fs : List (String × Value)} (hkeys : Ordered.Ascending fs) (h : ∀ f ∈ fs, Whole f.2) :
      Whole (.object fs)

/-- The value is read back from its text, in front of whatever may follow. -/
def Value.Readable (depth : Nat) (v : Value) : Prop :=
  ∀ n rest, Follows rest → 2 * v.print.length ≤ n + 1 →
    ∃ d, Document.read? (n + 1) (v.print ++ rest) = some (d, rest) ∧ d.value? depth = some v

theorem exists_print_integer (i : Int) :
    ∃ c cs, (Number.integer i).print = c :: cs ∧ (c = '-' ∨ c.isDigit = true) := by
  obtain ⟨c, cs, hcs⟩ := List.exists_cons_of_ne_nil (@Nat.toDigits_ne_nil i.natAbs 10)
  rw [Number.print]
  split
  · exact ⟨'-', _, rfl, .inl rfl⟩
  · exact ⟨c, cs, hcs, .inr
      (Nat.isDigit_of_mem_toDigits (b := 10) (by omega) (by omega) (hcs ▸ List.mem_cons_self))⟩

theorem not_blank_of_numeral {c : Char} (h : c = '-' ∨ c.isDigit = true) :
    isBlank c = false ∧ c ≠ ']' := by
  rcases h with rfl | h
  · decide
  · simp only [isBlank, Bool.or_eq_false_iff, beq_eq_false_iff_ne]
    refine ⟨⟨⟨⟨?_, ?_⟩, ?_⟩, ?_⟩, ?_⟩ <;> rintro rfl <;> exact absurd h (by decide)

/-- A text begins with no blank and no closing bracket. -/
theorem Value.Whole.exists_print {v : Value} (h : v.Whole) :
    ∃ c cs, v.print = c :: cs ∧ isBlank c = false ∧ c ≠ ']' := by
  cases h with
  | null => exact ⟨_, _, rfl, by decide⟩
  | bool b => cases b <;> exact ⟨_, _, rfl, by decide⟩
  | @integer i h =>
    obtain ⟨c, cs, hcs, hc⟩ := exists_print_integer i
    exact ⟨c, cs, hcs, not_blank_of_numeral hc⟩
  | text s => exact ⟨_, _, rfl, by decide⟩
  | @array vs h => cases vs <;> exact ⟨_, _, rfl, by decide⟩
  | @object fs hkeys h => cases fs <;> exact ⟨_, _, rfl, by decide⟩

theorem skipBlanks_of_head {c : Char} {cs : List Char} (h : isBlank c = false) :
    skipBlanks (c :: cs) = c :: cs := by
  simp [skipBlanks, h]

theorem skipBlanks_quote (cs : List Char) : skipBlanks ('"' :: cs) = '"' :: cs :=
  skipBlanks_of_head (by decide)

theorem Follows.comma (cs : List Char) : Follows (',' :: cs) := by simp [Follows]

theorem Follows.bracket (cs : List Char) : Follows (']' :: cs) := by simp [Follows]

theorem Follows.brace (cs : List Char) : Follows ('\x7d' :: cs) := by simp [Follows]

namespace Document

theorem read?_numeral {c : Char} {cs : List Char} (h : c = '-' ∨ c.isDigit = true) (n : Nat) :
    read? (n + 1) (c :: cs) = (Numeral.read? (c :: cs)).map (fun r => (.number r.1, r.2)) := by
  rw [read?, skipBlanks_of_head (not_blank_of_numeral h).1]
  split <;> simp_all

/-- Items that are readable are read up to the closing bracket. -/
theorem readItems?_print {depth : Nat} {v : Value} {vs : List Value}
    (h : ∀ w ∈ v :: vs, w.Readable depth) {n : Nat}
    (hn : 2 * (v.print ++ Value.printItems vs).length ≤ n) (rest : List Char) :
    ∃ ds, readItems? n (v.print ++ Value.printItems vs ++ rest) = some (ds, rest) ∧
      values? depth ds = some (v :: vs) := by
  induction vs generalizing v n with
  | nil =>
    simp only [Value.printItems, List.length_append, List.length_singleton] at hn
    obtain ⟨n, rfl⟩ : ∃ k, n = k + 2 := ⟨n - 2, by omega⟩
    obtain ⟨d, hread, hvalue⟩ := h v (by simp) n (']' :: rest) (.bracket rest) (by omega)
    refine ⟨[d], ?_, by simp [values?, hvalue]⟩
    have hclose : skipBlanks (']' :: rest) = ']' :: rest := skipBlanks_of_head (by decide)
    simp only [Value.printItems, List.append_assoc, List.singleton_append, readItems?, hread,
      hclose]
  | cons w vs ih =>
    simp only [Value.printItems, List.length_append, List.length_cons] at hn
    obtain ⟨n, rfl⟩ : ∃ k, n = k + 2 := ⟨n - 2, by omega⟩
    obtain ⟨d, hread, hvalue⟩ := h v (by simp) n
      (',' :: (w.print ++ Value.printItems vs ++ rest)) (.comma _) (by omega)
    obtain ⟨ds, hreads, hvalues⟩ := ih (fun u hu => h u (List.mem_cons_of_mem _ hu)) (n := n + 1)
      (by simp only [List.length_append]; omega)
    refine ⟨d :: ds, ?_, by simp [values?, hvalue, hvalues]⟩
    have hcomma : skipBlanks (',' :: (w.print ++ Value.printItems vs ++ rest)) =
        ',' :: (w.print ++ Value.printItems vs ++ rest) := skipBlanks_of_head (by decide)
    simp only [Value.printItems, List.append_assoc, List.cons_append] at hread hreads hcomma ⊢
    rw [readItems?, hread]
    simp only [hcomma, hreads, Option.map_some]

theorem quote_append (k : String) (cs : List Char) :
    quote k ++ cs = '"' :: (k.toList.flatMap escape ++ '"' :: cs) := by
  simp [quote]

section Field

variable {k : String} {cs after rest : List Char} {n : Nat} {d : Document}

/-- The field before the closing brace. -/
theorem readFields?_last (hread : read? n cs = some (d, after))
    (hafter : skipBlanks after = '\x7d' :: rest) :
    readFields? (n + 1) (quote k ++ ':' :: cs) =
      some ([(k.toList.flatMap escape, d)], rest) := by
  have hcolon : skipBlanks (':' :: cs) = ':' :: cs := skipBlanks_of_head (by decide)
  rw [quote_append, readFields?, skipBlanks_quote]
  simp only [body?_quoted, hcolon, hread, hafter]

/-- A field before a comma, after which the reader goes on. -/
theorem readFields?_more (hread : read? n cs = some (d, after))
    (hafter : skipBlanks after = ',' :: rest) :
    readFields? (n + 1) (quote k ++ ':' :: cs) =
      (readFields? n rest).map (fun r => ((k.toList.flatMap escape, d) :: r.1, r.2)) := by
  have hcolon : skipBlanks (':' :: cs) = ':' :: cs := skipBlanks_of_head (by decide)
  rw [quote_append, readFields?, skipBlanks_quote]
  simp only [body?_quoted, hcolon, hread, hafter]

end Field

/-- Fields are read back too, up to the closing brace. -/
theorem readFields?_print {depth : Nat} {f : String × Value} {fs : List (String × Value)}
    (h : ∀ g ∈ f :: fs, g.2.Readable depth) {n : Nat}
    (hn : 2 * (quote f.1 ++ ':' :: (f.2.print ++ Value.printFields fs)).length ≤ n)
    (rest : List Char) :
    ∃ ds, readFields? n (quote f.1 ++ ':' :: (f.2.print ++ Value.printFields fs ++ rest)) =
        some (ds, rest) ∧ entries? depth ds = some (f :: fs) := by
  induction fs generalizing f n with
  | nil =>
    simp only [Value.printFields, List.length_append, List.length_cons, List.length_nil] at hn
    obtain ⟨n, rfl⟩ : ∃ k, n = k + 2 := ⟨n - 2, by omega⟩
    obtain ⟨d, hread, hvalue⟩ := h f (by simp) n ('\x7d' :: rest) (.brace rest) (by omega)
    refine ⟨[(f.1.toList.flatMap escape, d)], ?_, by simp [entries?, string?_escaped, hvalue]⟩
    simp only [Value.printFields, List.append_assoc, List.singleton_append]
    exact readFields?_last hread (skipBlanks_of_head (by decide))
  | cons g fs ih =>
    simp only [Value.printFields, List.length_append, List.length_cons] at hn
    obtain ⟨n, rfl⟩ : ∃ k, n = k + 2 := ⟨n - 2, by omega⟩
    obtain ⟨d, hread, hvalue⟩ := h f (by simp) n
      (',' :: (quote g.1 ++ ':' :: (g.2.print ++ Value.printFields fs ++ rest))) (.comma _)
      (by omega)
    obtain ⟨ds, hreads, hvalues⟩ := ih (fun u hu => h u (List.mem_cons_of_mem _ hu)) (n := n + 1)
      (by simp only [List.length_append, List.length_cons]; omega)
    refine ⟨(f.1.toList.flatMap escape, d) :: ds, ?_,
      by simp [entries?, string?_escaped, hvalue, hvalues]⟩
    simp only [Value.printFields, List.append_assoc, List.cons_append] at hread hreads ⊢
    rw [readFields?_more hread (skipBlanks_of_head (by decide)), hreads, Option.map_some]

end Document

theorem Value.depth_le_depthOfItems {v : Value} {vs : List Value} (hv : v ∈ vs) :
    v.depth ≤ Value.depthOfItems vs := by
  induction vs with
  | nil => simp at hv
  | cons w vs ih =>
    rw [Value.depthOfItems]
    rcases List.mem_cons.mp hv with rfl | hv
    · exact Nat.le_max_left _ _
    · exact Nat.le_trans (ih hv) (Nat.le_max_right _ _)

theorem Value.depth_le_depthOfFields {f : String × Value} {fs : List (String × Value)}
    (hf : f ∈ fs) : f.2.depth ≤ Value.depthOfFields fs := by
  induction fs with
  | nil => simp at hf
  | cons g fs ih =>
    obtain ⟨k, w⟩ := g
    rw [Value.depthOfFields]
    rcases List.mem_cons.mp hf with rfl | hf
    · exact Nat.le_max_left _ _
    · exact Nat.le_trans (ih hf) (Nat.le_max_right _ _)

theorem Document.read?_bool (n : Nat) (b : Bool) (rest : List Char) :
    read? (n + 1) ((Value.bool b).print ++ rest) = some (.bool b, rest) := by
  cases b <;> simp [Value.print, read?, skipBlanks_of_head, isBlank, word?]

theorem Document.read?_quote (n : Nat) (s : String) (rest : List Char) :
    read? (n + 1) (quote s ++ rest) = some (.text (s.toList.flatMap escape), rest) := by
  rw [quote_append, read?, skipBlanks_quote]
  simp only [body?_quoted, Option.map_some]

theorem Document.read?_items {n : Nat} {c : Char} {cs after rest : List Char} {ds : List Document}
    (hafter : skipBlanks after = c :: cs) (hc : c ≠ ']')
    (hreads : readItems? n (c :: cs) = some (ds, rest)) :
    read? (n + 1) ('[' :: after) = some (.array ds, rest) := by
  have hopen : skipBlanks ('[' :: after) = '[' :: after := skipBlanks_of_head (by decide)
  rw [read?, hopen]
  simp only [hafter]
  split
  · simp_all
  · rw [hreads, Option.map_some]

theorem Document.read?_fields {n : Nat} {cs after rest : List Char}
    {ds : List (List Char × Document)} (hafter : skipBlanks after = '"' :: cs)
    (hreads : readFields? n ('"' :: cs) = some (ds, rest)) :
    read? (n + 1) ('\x7b' :: after) = some (.object ds, rest) := by
  have hopen : skipBlanks ('\x7b' :: after) = '\x7b' :: after := skipBlanks_of_head (by decide)
  rw [read?, hopen]
  simp only [hafter]
  split
  · simp_all
  · rw [hreads, Option.map_some]

/-- A value of whole numbers is readable as deep as it nests. -/
theorem Value.Whole.readable {v : Value} (h : v.Whole) {depth : Nat} (hdepth : v.depth ≤ depth) :
    v.Readable depth := by
  induction h generalizing depth with
  | null =>
    exact fun n rest _ _ => ⟨.null, by
      simp [print, Document.read?, skipBlanks_of_head, isBlank, Document.word?], rfl⟩
  | bool b => exact fun n rest _ _ => ⟨.bool b, Document.read?_bool n b rest, rfl⟩
  | @integer i hfits =>
    intro n rest hrest _
    obtain ⟨c, cs, hcs, hc⟩ := exists_print_integer i
    refine ⟨.number _, ?_, by rw [Document.value?, number?_toDigits hfits, Option.map_some]⟩
    rw [print, hcs, List.cons_append, Document.read?_numeral hc, ← List.cons_append, ← hcs,
      Number.print]
    have := read?_toDigits i.natAbs hrest.ends (decide (i < 0))
    simp only [decide_eq_true_eq] at this
    rw [this, Option.map_some]
  | text s =>
    exact fun n rest _ _ => ⟨.text _, Document.read?_quote n s rest, by
      rw [Document.value?, string?_escaped, Option.map_some]⟩
  | @array vs hvs ih =>
    intro n rest _ hn
    obtain ⟨depth, rfl⟩ : ∃ k, depth = k + 1 := ⟨depth - 1, by rw [Value.depth] at hdepth; omega⟩
    cases vs with
    | nil => exact ⟨.array [], by simp [print, Document.read?, skipBlanks_of_head, isBlank], rfl⟩
    | cons v vs =>
      have hall : ∀ w ∈ v :: vs, w.Readable depth := fun w hw => ih w hw (by
        have := Value.depth_le_depthOfItems hw
        rw [Value.depth] at hdepth
        omega)
      obtain ⟨ds, hreads, hvalues⟩ := Document.readItems?_print hall (n := n)
        (by simp only [print, List.length_cons] at hn; omega) rest
      obtain ⟨c, cs, hcs, hblank, hc⟩ := (hvs v (by simp)).exists_print
      refine ⟨.array ds, ?_, by rw [Document.value?, hvalues, Option.map_some]⟩
      rw [hcs] at hreads
      rw [print, List.cons_append, hcs]
      exact Document.read?_items (skipBlanks_of_head hblank) hc hreads
  | @object fs hkeys hfs ih =>
    intro n rest _ hn
    obtain ⟨depth, rfl⟩ : ∃ k, depth = k + 1 := ⟨depth - 1, by rw [Value.depth] at hdepth; omega⟩
    cases fs with
    | nil => exact ⟨.object [], by simp [print, Document.read?, skipBlanks_of_head, isBlank], rfl⟩
    | cons f fs =>
      have hall : ∀ g ∈ f :: fs, g.2.Readable depth := fun g hg => ih g hg (by
        have := Value.depth_le_depthOfFields hg
        rw [Value.depth] at hdepth
        omega)
      obtain ⟨ds, hreads, hvalues⟩ := Document.readFields?_print hall (n := n)
        (by simp only [print, List.length_cons] at hn; omega) rest
      refine ⟨.object ds, ?_, by
        rw [Document.value?, hvalues, Option.map_some, OrderedMap.entries_ofWrites hkeys]⟩
      rw [Document.quote_append] at hreads
      simp only [print, List.cons_append, List.append_assoc, Document.quote_append] at hreads ⊢
      exact Document.read?_fields (skipBlanks_quote _) hreads

/-- The compact text of a value of whole numbers is the text of a document, and this is read as the
value wherever it may nest as deep. -/
theorem Value.Whole.exists_document {v : Value} (h : v.Whole) {depth : Nat}
    (hdepth : v.depth ≤ depth) :
    ∃ d, Document.parse? v.compact = some d ∧ d.value? depth = some v := by
  obtain ⟨d, hread, hvalue⟩ := h.readable hdepth (2 * v.print.length + 1) [] (by simp [Follows])
    (by omega)
  rw [List.append_nil] at hread
  refine ⟨d, ?_, hvalue⟩
  simp only [Value.compact, Document.parse?, String.toList_ofList, hread]
  rfl

/-- A value of whole numbers that nests no deeper than a reader allows is what its compact text
says. -/
theorem Value.Whole.parse?_compact {v : Value} (h : v.Whole) (hdepth : v.depth ≤ depthLimit) :
    Value.parse? v.compact = some v := by
  obtain ⟨d, hd, hvalue⟩ := h.exists_document hdepth
  rw [Value.parse?, hd, Option.bind_some, hvalue]

end Statechart.Json
