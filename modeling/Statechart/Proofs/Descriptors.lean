import Mathlib.Data.List.DropRight
import Statechart.Proofs.Arena
import Statechart.Proofs.WellDeclared

/-!
What descriptors accept. Names are compared with a descriptor character by character, but what it
says is about tokens, the words between the dots: it accepts the names that begin with its tokens,
so whoever accepts a descriptor's own text accepts all that it does. Patterns are checked as they
are declared and read as descriptors afterwards, and a pattern that is not blank may be blank once
its dots have been dropped.
-/
namespace Statechart

namespace Descriptor

variable {d : Descriptor} {cs name blanks : List Char} {event pattern : String}

/-! ### Tokens -/

/-- The words of a text between its dots. Where dots meet, and before a first and after a last one,
there is an empty word. -/
def tokens (text : String) : List (List Char) := text.toList.splitOn '.'

@[simp] theorem toList_toString (d : Descriptor) : d.toString.toList = d.text := by simp [toString]

theorem intercalate_append {α : Type} {sep : List α} {ls ls' : List (List α)} (h : ls ≠ [])
    (h' : ls' ≠ []) :
    sep.intercalate (ls ++ ls') = sep.intercalate ls ++ sep ++ sep.intercalate ls' := by
  induction ls with
  | nil => exact absurd rfl h
  | cons l ls ih =>
    rw [List.cons_append, List.intercalate_cons_of_ne_nil (by simp [h'])]
    by_cases hls : ls = []
    · simp [hls]
    · simp [ih hls, List.intercalate_cons_of_ne_nil hls]

/-- A name begins with the tokens of a text if the text is all of it or ends at one of its dots. -/
theorem splitOn_prefix_iff : cs.splitOn '.' <+: name.splitOn '.' ↔
    name = cs ∨ ∃ rest, name = cs ++ '.' :: rest := by
  constructor
  · rintro ⟨more, hmore⟩
    have hcs : ['.'].intercalate (cs.splitOn '.') = cs := List.intercalate_splitOn '.'
    have hname : ['.'].intercalate (name.splitOn '.') = name := List.intercalate_splitOn '.'
    rw [← hmore] at hname
    by_cases hnil : more = []
    · rw [hnil, List.append_nil, hcs] at hname
      exact .inl hname.symm
    · rw [intercalate_append (List.splitOn_ne_nil '.' cs) hnil, hcs, List.append_assoc] at hname
      exact .inr ⟨_, hname.symm⟩
  · rintro (rfl | ⟨rest, rfl⟩)
    · exact List.prefix_refl _
    · rw [List.splitOn_append_cons_self]
      exact List.prefix_append _ _

theorem accepts_iff : d.accepts event = true ↔ d.isWildcard = true ∨
    event.toList = d.text ∨ ∃ rest, event.toList = d.text ++ '.' :: rest := by
  rw [accepts, Bool.or_eq_true]
  refine or_congr_right ?_
  cases hafter : after? d.text event.toList with
  | none =>
    have hnone (rest : List Char) : event.toList ≠ d.text ++ rest := fun h =>
      absurd (hafter.symm.trans (after?_eq_some_iff.mpr h)) (by simp)
    have hself := hnone []
    rw [List.append_nil] at hself
    simp [hself, hnone]
  | some rest =>
    rw [after?_eq_some_iff.mp hafter]
    cases rest with
    | nil => simp
    | cons c rest => simp

theorem accepts_iff_tokens : d.accepts event = true ↔
    d.isWildcard = true ∨ tokens d.toString <+: tokens event := by
  rw [accepts_iff, tokens, tokens, splitOn_prefix_iff, toList_toString]

theorem accepts_self (d : Descriptor) : d.accepts d.toString = true :=
  accepts_iff_tokens.mpr (.inr (List.prefix_refl _))

theorem text_of_isWildcard (h : d.isWildcard = true) : d.text = ['*'] := by
  simpa [isWildcard] using h

/-- Only the wildcard accepts the text of the wildcard. -/
theorem isWildcard_of_accepts {d' : Descriptor} (h : d.accepts d'.toString = true)
    (h' : d'.isWildcard = true) : d.isWildcard = true := by
  rcases accepts_iff.mp h with hwild | htext
  · exact hwild
  · rw [toList_toString, text_of_isWildcard h'] at htext
    rcases htext with htext | ⟨rest, hrest⟩
    · simp [isWildcard, ← htext]
    · have hdot : '.' ∈ ['*'] := hrest ▸ by simp
      exact absurd hdot (by decide)

theorem accepts_trans {d' : Descriptor} (h : d.accepts d'.toString = true)
    (h' : d'.accepts event = true) : d.accepts event = true := by
  rcases accepts_iff_tokens.mp h' with hwild' | htokens'
  · exact accepts_iff.mpr (.inl (isWildcard_of_accepts h hwild'))
  · rcases accepts_iff_tokens.mp h with hwild | htokens
    · exact accepts_iff.mpr (.inl hwild)
    · exact accepts_iff_tokens.mpr (.inr (htokens.trans htokens'))

/-- A descriptor accepts the names that begin with its tokens, and the wildcard accepts all names.
It accepts the text of another one exactly if it accepts everything that the other one does. -/
theorem accepts_by_tokens (pattern : String) :
    (∀ event, (ofPattern pattern).accepts event = true ↔ (ofPattern pattern).isWildcard = true ∨
      tokens (ofPattern pattern).toString <+: tokens event) ∧
    ∀ d : Descriptor, (ofPattern pattern).accepts d.toString = true ↔
      ∀ event, d.accepts event = true → (ofPattern pattern).accepts event = true :=
  ⟨fun _ => accepts_iff_tokens, fun _ =>
    ⟨fun h _ h' => accepts_trans h h', fun h => h _ (accepts_self _)⟩⟩

/-- Whoever waits for completions of any kind hears that a state is complete, but not from a name
that only begins with the same letters. -/
theorem done_accepts :
    (ofPattern "done.*").accepts (ofPattern "done.state.").toString = true ∧
    (ofPattern "done.state.").accepts "done.state.loading" = true ∧
    (ofPattern "done.*").accepts "done.state.loading" = true ∧
    (ofPattern "done.state.").accepts "done.stateful" = false := by
  obtain ⟨htokens, hdominates⟩ := accepts_by_tokens "done.*"
  have htext : (ofPattern "done.*").accepts (ofPattern "done.state.").toString = true :=
    (htokens _).mpr (.inr (by decide +kernel))
  have hstate : (ofPattern "done.state.").accepts "done.state.loading" = true := by decide +kernel
  exact ⟨htext, hstate, (hdominates _).mp htext _ hstate, by decide +kernel⟩

/-! ### What reading drops -/

theorem dropStar_cases (cs : List Char) : dropStar cs = cs ∨ cs = dropStar cs ++ ['.', '*'] := by
  unfold dropStar
  split
  · rename_i rest hrest
    exact .inr (by simpa using congrArg List.reverse hrest)
  · exact .inl rfl

theorem dropStar_of_not_mem (h : '*' ∉ cs) : dropStar cs = cs :=
  (dropStar_cases cs).resolve_right fun hstar => h (hstar ▸ by simp)

theorem dropStar_append_star (cs : List Char) : dropStar (cs ++ ['.', '*']) = cs := by
  simp [dropStar]

theorem exists_dots (cs : List Char) : ∃ n, cs = dropTrailingDots cs ++ List.replicate n '.' := by
  refine ⟨(cs.rtakeWhile (· == '.')).length, ?_⟩
  have hdots := List.eq_replicate_of_mem fun c hc =>
    eq_of_beq (List.mem_rtakeWhile_imp (p := (· == '.')) (l := cs) hc)
  rw [← hdots]
  exact List.rdropWhile_append_rtakeWhile.symm

theorem dropTrailingDots_append_dots (h : '.' ∉ cs) (n : Nat) :
    dropTrailingDots (cs ++ List.replicate n '.') = cs := by
  change List.rdropWhile (· == '.') (cs ++ List.replicate n '.') = cs
  induction n with
  | zero =>
    rw [List.replicate_zero, List.append_nil, List.rdropWhile_eq_self_iff]
    exact fun hne hlast => h (eq_of_beq hlast ▸ List.getLast_mem hne)
  | succ n ih =>
    rw [List.replicate_succ', ← List.append_assoc, List.rdropWhile_concat_pos _ _ _ (by simp), ih]

/-- The text followed by dots, with or without a star behind the last one. -/
def Padded (text : List Char) (pattern : String) : Prop := ∃ n,
  pattern.toList = text ++ List.replicate n '.' ∨
    pattern.toList = text ++ List.replicate n '.' ++ ['.', '*']

/-- Nothing but dots, and perhaps a star, after blanks. -/
def Hollow (pattern : String) : Prop :=
  ∃ blanks, (∀ c ∈ blanks, Text.isBlank c = true) ∧ Padded blanks pattern

theorem padded_ofPattern (pattern : String) : Padded (ofPattern pattern).text pattern := by
  obtain ⟨n, hn⟩ := exists_dots (dropStar pattern.toList)
  refine ⟨n, ?_⟩
  rw [ofPattern, ← hn]
  exact (dropStar_cases _).imp Eq.symm id

theorem isBlankText_iff : Text.isBlankText d.toString = true ↔
    ∀ c ∈ d.text, Text.isBlank c = true := by
  simp [Text.isBlankText]

/-- The hollow patterns are those that are read as a blank descriptor. -/
theorem isBlankText_ofPattern_iff :
    Text.isBlankText (ofPattern pattern).toString = true ↔ Hollow pattern := by
  rw [isBlankText_iff]
  constructor
  · exact fun hblank => ⟨_, hblank, padded_ofPattern pattern⟩
  · rintro ⟨blanks, hblank, n, htext⟩
    -- Blanks are neither dots nor stars, so what is dropped ends where they end.
    have hdot : '.' ∉ blanks := fun h => absurd (hblank _ h) (by decide)
    have hstar : '*' ∉ blanks ++ List.replicate n '.' := by
      rw [List.mem_append, List.mem_replicate]
      rintro (h | ⟨-, h⟩)
      · exact absurd (hblank _ h) (by decide)
      · exact absurd h (by decide)
    have hdrop : dropStar pattern.toList = blanks ++ List.replicate n '.' := by
      rcases htext with htext | htext
      · rw [htext, dropStar_of_not_mem hstar]
      · rw [htext, dropStar_append_star]
    rw [ofPattern, hdrop, dropTrailingDots_append_dots hdot]
    exact hblank

/-- A descriptor starts with a dot if its pattern does, unless the dots of that are all dropped. -/
theorem head?_ofPattern_iff : (ofPattern pattern).text.head? = some '.' ↔
    pattern.toList.head? = some '.' ∧ ¬Hollow pattern := by
  have hpadded := padded_ofPattern pattern
  rw [← isBlankText_ofPattern_iff, isBlankText_iff]
  generalize (ofPattern pattern).text = text at hpadded ⊢
  obtain ⟨n, htext⟩ := hpadded
  cases text with
  | nil => simp
  | cons x more =>
    have hhead : pattern.toList.head? = some x := by
      rcases htext with htext | htext <;> rw [htext] <;> rfl
    rw [hhead, List.head?_cons]
    refine ⟨fun h => ⟨h, fun hblank => ?_⟩, fun h => h.1⟩
    obtain rfl := Option.some.inj h
    exact absurd (hblank '.' List.mem_cons_self) (by decide)

/-- A name accepted by a blank descriptor begins with a blank word. -/
theorem blank_token_of_accepts (hblank : Text.isBlankText d.toString = true)
    (h : d.accepts event = true) : ∃ first more, tokens event = first :: more ∧
      ∀ c ∈ first, Text.isBlank c = true := by
  rw [isBlankText_iff] at hblank
  rcases accepts_iff_tokens.mp h with hwild | ⟨more, hmore⟩
  · have hstar := hblank '*' (by simp [text_of_isWildcard hwild])
    exact absurd hstar (by decide)
  · have hdot : '.' ∉ d.text := fun h => absurd (hblank _ h) (by decide)
    have htext : tokens d.toString = [d.text] := by
      rw [tokens, toList_toString, List.splitOn_eq_singleton hdot]
    rw [htext] at hmore
    exact ⟨d.text, more, hmore.symm, hblank⟩

/-- A descriptor accepts its own text, and a name that does not start with a dot only if its own
text does not start with one either. -/
theorem exists_undotted_iff : (∃ event : String, event.toList.head? ≠ some '.' ∧
    d.accepts event = true) ↔ d.text.head? ≠ some '.' := by
  constructor
  · rintro ⟨event, hhead, h⟩ hdot
    rcases accepts_iff.mp h with hwild | htext
    · simp [text_of_isWildcard hwild] at hdot
    · refine hhead ?_
      rcases htext with htext | ⟨rest, htext⟩
      · rw [htext, hdot]
      · rw [htext, List.head?_append, hdot, Option.some_or]
  · exact fun hhead => ⟨d.toString, by rwa [toList_toString], accepts_self d⟩

end Descriptor

/-! ### The triggers of a chart -/

/-- A transition of the chart is triggered by what the descriptor accepts. -/
def Chart.Awaits (c : Chart) (e : Descriptor) : Prop :=
  ∃ u ∈ c.transitions, ∃ g ∈ u.triggers, g.event = some e

/-- A transition is declared with the pattern. -/
def StateDecl.Awaits (root : StateDecl) (pattern : String) : Prop :=
  ∃ s ∈ root.preorder, ∃ t ∈ s.transitions, ∃ g ∈ t.triggers, g.event = some pattern

namespace StateDecl

theorem mem_declared {ds : List StateDecl} {t : TransitionDecl} :
    (∃ u ∈ declared ds.zipIdx, u.decl = t) ↔ ∃ s ∈ ds, t ∈ s.transitions := by
  simp only [declared, List.mem_flatMap, List.mem_map]
  constructor
  · rintro ⟨u, ⟨p, hp, t', ht', rfl⟩, rfl⟩
    exact ⟨p.1, List.fst_mem_of_mem_zipIdx hp, ht'⟩
  · rintro ⟨s, hs, ht⟩
    obtain ⟨i, hi⟩ := List.mem_iff_getElem?.mp hs
    exact ⟨_, ⟨(s, i), List.mem_zipIdx_iff_getElem?.mpr hi, t, ht, rfl⟩, rfl⟩

theorem Awaits.not_blank {root : StateDecl} (wd : root.WellDeclared) {pattern : String}
    (h : root.Awaits pattern) : Text.isBlankText pattern = false := by
  obtain ⟨s, hs, t, ht, g, hg, hevent⟩ := h
  exact (wd.transitions s hs t ht).descriptors g hg pattern hevent

end StateDecl

/-- The chart awaits what was declared, each pattern read as a descriptor. -/
theorem Chart.Draws.awaits_iff {c : Chart} {root : StateDecl} (h : c.Draws root)
    {e : Descriptor} :
    c.Awaits e ↔ ∃ pattern, root.Awaits pattern ∧ Descriptor.ofPattern pattern = e := by
  constructor
  · rintro ⟨u, hu, g, hg, hevent⟩
    obtain ⟨t, ht, hdraws⟩ := exists_mem_of_forall₂ h.transitions (Array.mem_toList_iff.mpr hu)
    obtain ⟨s, hs, hst⟩ := StateDecl.mem_declared.mp ⟨t, ht, rfl⟩
    rw [hdraws.triggers] at hg
    obtain ⟨g', hg', rfl⟩ := List.mem_map.mp hg
    obtain ⟨pattern, hpattern, he⟩ := Option.map_eq_some_iff.mp hevent
    exact ⟨pattern, ⟨s, hs, t.decl, hst, g', hg', hpattern⟩, he⟩
  · rintro ⟨pattern, ⟨s, hs, t, ht, g, hg, hpattern⟩, rfl⟩
    obtain ⟨u, hu, rfl⟩ := StateDecl.mem_declared.mpr ⟨s, hs, ht⟩
    obtain ⟨v, hv, hdraws⟩ := exists_result_of_forall₂ h.transitions hu
    refine ⟨v, Array.mem_toList_iff.mp hv, ⟨some (.ofPattern pattern), g.guard⟩, ?_, rfl⟩
    rw [hdraws.triggers]
    exact List.mem_map.mpr ⟨g, hg, by rw [hpattern, Option.map_some]⟩

open Descriptor in
/-- A chart awaits the descriptors that the declared patterns are read as. No pattern is blank, but
a hollow one, and no other, is read as a blank descriptor, which hears of nothing but names that
begin with a blank word. Names that do not start with a dot are heard of unless the pattern starts
with one that is not dropped. -/
theorem ChartDecl.awaited_blank_iff {d : ChartDecl} {c : Chart} (hb : d.build = .ok c) :
    (∀ e, c.Awaits e ↔ ∃ pattern, d.root.Awaits pattern ∧ ofPattern pattern = e) ∧
    ∀ pattern, d.root.Awaits pattern → Text.isBlankText pattern = false ∧
      (Text.isBlankText (ofPattern pattern).toString = true ↔ Hollow pattern) ∧
      (Hollow pattern → ∀ name, (ofPattern pattern).accepts name = true →
        ∃ first more, tokens name = first :: more ∧ ∀ x ∈ first, Text.isBlank x = true) ∧
      ((∃ name : String, name.toList.head? ≠ some '.' ∧ (ofPattern pattern).accepts name = true) ↔
        pattern.toList.head? ≠ some '.' ∨ Hollow pattern) := by
  refine ⟨fun e => (draws_of_build hb).awaits_iff, fun pattern h => ?_⟩
  refine ⟨h.not_blank (wellDeclared_of_build hb), isBlankText_ofPattern_iff,
    fun hhollow name hname => ?_, ?_⟩
  · exact blank_token_of_accepts (isBlankText_ofPattern_iff.mpr hhollow) hname
  · rw [exists_undotted_iff, ne_eq, head?_ofPattern_iff, not_and_or, not_not]

/-- Somebody asleep, to be woken by a name without words. -/
def hush : ChartDecl where
  name := "Hush"
  states := [(StateDecl.plain "asleep").withTransition (.simple "." "awake"), .plain "awake"]

/-- A dot is no blank pattern, but nothing is left of it. -/
theorem hush_awaits_blank : hush.build = .ok hush.chart ∧ hush.root.Awaits "." ∧
    Text.isBlankText "." = false ∧ hush.chart.Awaits (Descriptor.ofPattern ".") ∧
    Text.isBlankText (Descriptor.ofPattern ".").toString = true := by
  have hb : hush.build = .ok hush.chart := ChartDecl.build_eq_chart (by decide +kernel)
  obtain ⟨hawaits, hpatterns⟩ := ChartDecl.awaited_blank_iff hb
  have hdot : hush.root.Awaits "." :=
    ⟨hush.root.preorder[1], by simp, .simple "." "awake", by decide, ⟨some ".", none⟩, by decide,
      rfl⟩
  have hhollow : Descriptor.Hollow "." := ⟨[], by simp, 1, .inl (by decide)⟩
  obtain ⟨hblank, hread, -⟩ := hpatterns "." hdot
  exact ⟨hb, hdot, hblank, (hawaits _).mpr ⟨".", hdot, rfl⟩, hread.mpr hhollow⟩

end Statechart
