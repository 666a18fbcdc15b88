import Mathlib.Data.List.Induction
import Mathlib.Data.List.Pairwise
import Mathlib.Data.List.Sort
import Statechart.Proofs.Selection

/-!
Priority among candidates. Candidates are met in document order but go first by depth, so one may
yield to a rival that has to yield in turn. The choice is compared with the greedy one, which meets
the candidates in the order in which they go first.
-/
namespace Statechart

namespace Candidate

variable {a b c : Candidate}

theorem preempts_iff : a.preempts b = true ↔
    a.depth < b.depth ∨ a.depth = b.depth ∧ a.source < b.source := by
  simp [preempts]

theorem not_preempts_self (a : Candidate) : ¬a.preempts a = true := by
  rw [preempts_iff]
  omega

theorem preempts_trans (h : a.preempts b = true) (h' : b.preempts c = true) :
    a.preempts c = true := by
  rw [preempts_iff] at *
  omega

theorem not_preempts_of_preempts (h : a.preempts b = true) : ¬b.preempts a = true :=
  fun h' => not_preempts_self a (preempts_trans h h')

theorem preempts_of_not_preempts (hne : a.source ≠ b.source) (h : ¬a.preempts b = true) :
    b.preempts a = true := by
  rw [preempts_iff] at *
  omega

/-- There is no endless going first. -/
theorem preempts_wellFounded : WellFounded fun a b : Candidate => a.preempts b = true := by
  refine Subrelation.wf (fun {a b} h => ?_)
    (InvImage.wf (fun a : Candidate => (a.depth, a.source)) (Prod.lex Nat.lt_wfRel Nat.lt_wfRel).wf)
  rcases preempts_iff.mp h with hlt | ⟨heq, hlt⟩
  · exact Prod.Lex.left _ _ hlt
  · simp only [InvImage, heq]
    exact Prod.Lex.right _ hlt

/-- The second candidate does not go before the first one. -/
def NotAfter (a b : Candidate) : Prop := ¬b.preempts a = true

instance : DecidableRel NotAfter := fun a b => inferInstanceAs (Decidable ¬b.preempts a = true)

instance : Std.Total NotAfter where
  total a b := by
    simp only [NotAfter, preempts_iff]
    omega

instance : IsTrans Candidate NotAfter where
  trans a b c hab hbc := by
    simp only [NotAfter, preempts_iff] at *
    omega

theorem conflicts_symm (h : a.conflicts b = true) : b.conflicts a = true :=
  conflicts_comm a b ▸ h

end Candidate

open Candidate (preempts_trans preempts_of_not_preempts not_preempts_self not_preempts_of_preempts
  conflicts_symm)

namespace Selection

variable {cs seen rest chosen taken greed : List Candidate} {a b new : Candidate}

/-- Candidates in the document order of their sources, one for each source. -/
def InOrder (cs : List Candidate) : Prop := cs.Pairwise (fun a b => a.source < b.source)

theorem InOrder.source_lt (h : InOrder (cs ++ [new])) (ha : a ∈ cs) : a.source < new.source :=
  (List.pairwise_append.mp h).2.2 a ha new (by simp)

theorem resolve_concat (cs : List Candidate) (new : Candidate) :
    resolve (cs ++ [new]) = consider (resolve cs) new := by
  simp [resolve]

/-- All that one step of the choice can do. -/
theorem consider_cases (chosen : List Candidate) (new : Candidate) :
    (∃ b ∈ chosen, b.conflicts new = true ∧ b.preempts new = true) ∧
        consider chosen new = chosen ∨
      (∀ b ∈ chosen, b.conflicts new = true → ¬b.preempts new = true) ∧
        ∀ a, a ∈ consider chosen new ↔ a ∈ chosen ∧ a.conflicts new = false ∨ a = new := by
  unfold consider
  split
  · rename_i h
    simp only [List.any_eq_true, Bool.and_eq_true] at h
    exact .inl ⟨h, rfl⟩
  · rename_i h
    simp only [List.any_eq_true, Bool.and_eq_true, not_exists, not_and] at h
    exact .inr ⟨h, fun a => by simp⟩

/-- A candidate left out conflicts with another that goes first. -/
theorem exists_preempting (h : InOrder cs) (ha : a ∈ cs) (hn : a ∉ resolve cs) :
    ∃ b ∈ cs, b.conflicts a = true ∧ b.preempts a = true := by
  induction cs using List.reverseRecOn with
  | nil => simp at ha
  | append_singleton cs new ih =>
    have ih := ih (List.pairwise_append.mp h).1
    rw [resolve_concat] at hn
    rcases List.mem_append.mp ha with ha | ha
    · by_cases hr : a ∈ resolve cs
      · -- The last candidate has driven it out.
        rcases consider_cases (resolve cs) new with ⟨-, heq⟩ | ⟨hfirst, hmem⟩
        · rw [heq] at hn
          exact absurd hr hn
        · have hconf : a.conflicts new = true := by
            by_contra hno
            exact hn ((hmem a).mpr (.inl ⟨hr, by simpa using hno⟩))
          exact ⟨new, by simp, conflicts_symm hconf,
            preempts_of_not_preempts (Nat.ne_of_lt (h.source_lt ha)) (hfirst a hr hconf)⟩
      · obtain ⟨b, hb, hba⟩ := ih ha hr
        exact ⟨b, by simp [hb], hba⟩
    · obtain rfl := List.mem_singleton.mp ha
      rcases consider_cases (resolve cs) a with ⟨⟨b, hb, hba⟩, -⟩ | ⟨-, hmem⟩
      · exact ⟨b, by simp [resolve_subset hb], hba⟩
      · exact absurd ((hmem a).mpr (.inr rfl)) hn

/-! ### The greedy choice -/

def allow (taken : List Candidate) (new : Candidate) : List Candidate :=
  if taken.any (·.conflicts new) then taken else taken ++ [new]

/-- In the order in which they go first, all candidates that conflict with none taken before. -/
def greedy (cs : List Candidate) : List Candidate :=
  (cs.insertionSort Candidate.NotAfter).foldl allow []

/-- Taken is what no other candidate taken goes before and conflicts with. -/
def Kernel (cs taken : List Candidate) : Prop :=
  ∀ a, a ∈ taken ↔ a ∈ cs ∧ ∀ b ∈ taken, b.preempts a = true → b.conflicts a = false

theorem kernel_foldl_allow (h : cs.Pairwise (fun a b => a.preempts b = true)) :
    Kernel cs (cs.foldl allow []) := by
  induction cs using List.reverseRecOn with
  | nil => simp [Kernel]
  | append_singleton cs new ih =>
    obtain ⟨hcs, -, hlast⟩ := List.pairwise_append.mp h
    have ih := ih hcs
    have hfirst : ∀ b ∈ cs, b.preempts new = true := fun b hb => hlast b hb new (by simp)
    have hself : new ∉ cs := fun hn => not_preempts_self new (hfirst new hn)
    have hsub : ∀ b ∈ cs.foldl allow [], b ∈ cs := fun b hb => ((ih b).mp hb).1
    intro a
    rw [List.foldl_append, List.foldl_cons, List.foldl_nil, allow]
    by_cases hany : (cs.foldl allow []).any (·.conflicts new) = true
    · obtain ⟨b, hb, hbn⟩ := List.any_eq_true.mp hany
      rw [if_pos hany, ih a, List.mem_append, List.mem_singleton]
      refine ⟨fun ⟨ha, hno⟩ => ⟨.inl ha, hno⟩, fun ⟨ha, hno⟩ => ⟨ha.resolve_right ?_, hno⟩⟩
      rintro rfl
      simp [hno b hb (hfirst b (hsub b hb))] at hbn
    · simp only [List.any_eq_true, not_exists, not_and, Bool.not_eq_true] at hany
      rw [if_neg (by simpa using hany), List.mem_append, List.mem_append, List.mem_singleton]
      constructor
      · rintro (ha | rfl)
        · obtain ⟨hmem, hno⟩ := (ih a).mp ha
          refine ⟨.inl hmem, List.forall_mem_append.mpr ⟨hno, ?_⟩⟩
          simpa using fun hn => absurd hn (not_preempts_of_preempts (hfirst a hmem))
        · refine ⟨.inr rfl, List.forall_mem_append.mpr ⟨fun b hb _ => hany b hb, ?_⟩⟩
          simpa using fun hn => absurd hn (not_preempts_self a)
      · rintro ⟨ha | rfl, hno⟩
        · exact .inl ((ih a).mpr ⟨ha, (List.forall_mem_append.mp hno).1⟩)
        · exact .inr rfl

theorem kernel_greedy (h : InOrder cs) : Kernel cs (greedy cs) := by
  have hperm := List.perm_insertionSort Candidate.NotAfter cs
  have hdistinct :
      (cs.insertionSort Candidate.NotAfter).Pairwise (fun a b => a.source ≠ b.source) :=
    hperm.symm.pairwise (List.Pairwise.imp Nat.ne_of_lt h) fun h => h.symm
  have hkernel := kernel_foldl_allow ((List.pairwise_insertionSort Candidate.NotAfter cs).imp₂
    (fun a b hle hne => preempts_of_not_preempts (Ne.symm hne) hle) hdistinct)
  intro a
  rw [← hperm.mem_iff]
  exact hkernel a

/-- There is one such choice only. -/
theorem Kernel.mem_iff (h : Kernel cs chosen) (h' : Kernel cs taken) (a : Candidate) :
    a ∈ chosen ↔ a ∈ taken := by
  induction a using Candidate.preempts_wellFounded.induction with
  | _ a ih =>
    rw [h a, h' a]
    refine and_congr_right fun _ => ⟨fun hno b hb hba => ?_, fun hno b hb hba => ?_⟩
    · exact hno b ((ih b hba).mpr hb) hba
    · exact hno b ((ih b hba).mp hb) hba

/-- What is left out conflicts with something taken that goes first. -/
def Maximal (cs taken : List Candidate) : Prop :=
  ∀ a ∈ cs, a ∉ taken → ∃ b ∈ taken, b.conflicts a = true ∧ b.preempts a = true

theorem Kernel.maximal (h : Kernel cs taken) : Maximal cs taken := by
  intro a ha hn
  by_contra hno
  refine hn ((h a).mpr ⟨ha, fun b hb hba => ?_⟩)
  by_contra hconf
  exact hno ⟨b, hb, by simpa using hconf, hba⟩

theorem no_conflict_of_resolve (ha : a ∈ resolve cs) (hb : b ∈ resolve cs) (hne : a ≠ b) :
    a.conflicts b = false := by
  have : Std.Symm (fun a b : Candidate => a.conflicts b = false) :=
    ⟨fun a b h => (Candidate.conflicts_comm b a).trans h⟩
  exact (resolve_pairwise cs).forall ha hb hne

theorem Maximal.kernel (h : Maximal cs (resolve cs)) : Kernel cs (resolve cs) := by
  intro a
  constructor
  · intro ha
    refine ⟨resolve_subset ha, fun b hb hba => no_conflict_of_resolve hb ha ?_⟩
    rintro rfl
    exact not_preempts_self b hba
  · rintro ⟨ha, hno⟩
    by_contra hn
    obtain ⟨b, hb, hconf, hba⟩ := h a ha hn
    simp [hno b hb hba] at hconf

/-- The choice is maximal exactly when it is the greedy one. -/
theorem maximal_resolve_iff (h : InOrder cs) :
    Maximal cs (resolve cs) ↔ ∀ a, a ∈ resolve cs ↔ a ∈ greedy cs := by
  constructor
  · exact fun hmax => hmax.kernel.mem_iff (kernel_greedy h)
  · intro heq a ha hn
    obtain ⟨b, hb, hba⟩ := (kernel_greedy h).maximal a ha fun hg => hn ((heq a).mpr hg)
    exact ⟨b, (heq b).mpr hb, hba⟩

/-- The second candidate makes the first one yield, and yields to the third one, which comes later
than both and does not mind the first. -/
structure Chain (a b c : Candidate) : Prop where
  conflict : b.conflicts a = true
  preempts : b.preempts a = true
  conflict' : c.conflicts b = true
  preempts' : c.preempts b = true
  spared : c.conflicts a = false
  later : a.source < c.source
  later' : b.source < c.source

/-- A candidate is left out for one that is chosen, or at the head of a chain. -/
theorem exists_preempting_or_chain (h : InOrder cs) (ha : a ∈ cs) (hn : a ∉ resolve cs) :
    (∃ b ∈ resolve cs, b.conflicts a = true ∧ b.preempts a = true) ∨
      ∃ b ∈ cs, ∃ c ∈ cs, Chain a b c := by
  induction cs using List.reverseRecOn with
  | nil => simp at ha
  | append_singleton cs new ih =>
    have ih := ih (List.pairwise_append.mp h).1
    have hlater {b : Candidate} (hb : b ∈ resolve cs) : b.source < new.source :=
      h.source_lt (resolve_subset hb)
    rw [resolve_concat] at hn ⊢
    have longer (hchain : ∃ b ∈ cs, ∃ c ∈ cs, Chain a b c) :
        ∃ b ∈ cs ++ [new], ∃ c ∈ cs ++ [new], Chain a b c := by
      obtain ⟨b, hb, c, hc, hchain⟩ := hchain
      exact ⟨b, by simp [hb], c, by simp [hc], hchain⟩
    rcases consider_cases (resolve cs) new with ⟨hrival, heq⟩ | ⟨hfirst, hmem⟩
    · rw [heq] at hn ⊢
      rcases List.mem_append.mp ha with ha | ha
      · exact (ih ha hn).imp_right longer
      · obtain rfl := List.mem_singleton.mp ha
        exact .inl hrival
    · have hnew : new ∈ consider (resolve cs) new := (hmem new).mpr (.inr rfl)
      have hwins {b : Candidate} (hb : b ∈ resolve cs) (hconf : b.conflicts new = true) :
          new.preempts b = true :=
        preempts_of_not_preempts (Nat.ne_of_lt (hlater hb)) (hfirst b hb hconf)
      have hacs : a ∈ cs := by
        refine (List.mem_append.mp ha).resolve_right fun hlast => ?_
        exact hn ((hmem a).mpr (.inr (List.mem_singleton.mp hlast)))
      by_cases hr : a ∈ resolve cs
      · have hconf : a.conflicts new = true := by
          by_contra hno
          exact hn ((hmem a).mpr (.inl ⟨hr, by simpa using hno⟩))
        exact .inl ⟨new, hnew, conflicts_symm hconf, hwins hr hconf⟩
      · rcases ih hacs hr with ⟨b, hb, hconf, hba⟩ | hchain
        · by_cases hbn : b.conflicts new = true
          · by_cases han : new.conflicts a = true
            · exact .inl ⟨new, hnew, han, preempts_trans (hwins hb hbn) hba⟩
            · exact .inr ⟨b, by simp [resolve_subset hb], new, by simp, hconf, hba,
                conflicts_symm hbn, hwins hb hbn, by simpa using han, h.source_lt hacs, hlater hb⟩
          · exact .inl ⟨b, (hmem b).mpr (.inl ⟨hb, by simpa using hbn⟩), hconf, hba⟩
        · exact .inr (longer hchain)

/-! ### Conflicts along a tree -/

/-- Conflicts as they come from the subtrees of a tree whose nodes stand in document order. A
candidate between two that conflict takes part in the conflict, unless it conflicts with nothing;
and of three candidates, two of which conflict with the third one only, the third one conflicts with
all that these conflict with. -/
structure Laminar (cs : List Candidate) : Prop where
  between : ∀ a ∈ cs, ∀ b ∈ cs, ∀ c ∈ cs, a.source < b.source → b.source < c.source →
    a.conflicts c = true → ∀ d ∈ cs, b.conflicts d = true →
    b.conflicts a = true ∨ b.conflicts c = true
  absorbs : ∀ a ∈ cs, ∀ b ∈ cs, ∀ c ∈ cs, b.conflicts a = true → b.conflicts c = true →
    a.conflicts c = false → ∀ d ∈ cs, d.conflicts c = true → d.conflicts b = true

/-- What is taken greedily yields to no rival that would spare something it conflicts with. -/
theorem Kernel.no_rival (lam : Laminar cs) (hk : Kernel cs greed) {g h : Candidate} (hg : g ∈ greed)
    (ha : a ∈ cs) (hh : h ∈ cs) (hga : g.conflicts a = true) (hhg : h.conflicts g = true)
    (hfirst : h.preempts g = true) (hha : h.conflicts a = false) : False := by
  have hgcs := ((hk g).mp hg).1
  -- The rival is not taken itself, so it yields to something taken, to which `g` would yield too.
  have hnot : h ∉ greed := fun hin => by simp [((hk g).mp hg).2 h hin hfirst] at hhg
  obtain ⟨d, hd, hdh, hdfirst⟩ := hk.maximal h hh hnot
  have hdg : d.conflicts g = true := by
    refine lam.absorbs a ha g hgcs h hh hga (conflicts_symm hhg) ?_ d ((hk d).mp hd).1 hdh
    rwa [Candidate.conflicts_comm]
  simp [((hk g).mp hg).2 d hd (preempts_trans hdfirst hfirst)] at hdg

/-- Halfway through the candidates: what is chosen does not conflict with anything met that is
greedily taken and goes first; and what is greedily taken but has been given up has a rival in the
choice that goes first, or that keeps out each later one it could have kept out itself. -/
structure Halfway (cs greed seen : List Candidate) : Prop where
  chosen : ∀ a ∈ resolve seen, ∀ g ∈ greed, g ∈ seen → g.preempts a = true → g.conflicts a = false
  given_up : ∀ g ∈ greed, g ∈ seen → g ∉ resolve seen → ∀ a ∈ cs, a ∉ seen →
    g.conflicts a = true → ∃ h ∈ resolve seen, h.preempts g = true ∧
      (h.conflicts g = true ∨ h.conflicts a = true)

section Concat

variable (lam : Laminar cs) (hord : InOrder (seen ++ [new])) (hin : ∀ a ∈ seen ++ [new], a ∈ cs)
  (half : Halfway cs greed seen)
include lam hord hin half

theorem Halfway.chosen_concat (hk : Kernel cs greed) (ha : a ∈ resolve (seen ++ [new]))
    (hg : b ∈ greed) (hgseen : b ∈ seen ++ [new]) (hga : b.preempts a = true) :
    b.conflicts a = false := by
  rw [resolve_concat] at ha
  have hseen : ∀ c ∈ resolve seen, c ∈ cs := fun c hc => hin c (by simp [resolve_subset hc])
  by_contra hconf
  simp only [Bool.not_eq_false] at hconf
  rcases consider_cases (resolve seen) new with ⟨⟨c, hc, hcn, hcfirst⟩, heq⟩ | ⟨hfirst, hmem⟩
  · rw [heq] at ha
    rcases List.mem_append.mp hgseen with hgseen | hgnew
    · simp [half.chosen a ha b hg hgseen hga] at hconf
    · -- The last candidate would go before `a`, but is kept out by a rival.
      obtain rfl := List.mem_singleton.mp hgnew
      have hca : c ≠ a := by
        rintro rfl
        exact not_preempts_of_preempts hcfirst hga
      exact hk.no_rival lam hg (hseen a ha) (hseen c hc) hconf hcn hcfirst
        (no_conflict_of_resolve hc ha hca)
  · rcases (hmem a).mp ha with ⟨ha, han⟩ | rfl
    · rcases List.mem_append.mp hgseen with hgseen | hgnew
      · simp [half.chosen a ha b hg hgseen hga] at hconf
      · obtain rfl := List.mem_singleton.mp hgnew
        simp [Candidate.conflicts_comm, han] at hconf
    · have hgold : b ∈ seen := by
        refine (List.mem_append.mp hgseen).resolve_right fun hlast => ?_
        obtain rfl := List.mem_singleton.mp hlast
        exact not_preempts_self b hga
      by_cases hgr : b ∈ resolve seen
      · exact hfirst b hgr hconf hga
      · have hnew : a ∈ cs := hin a (by simp)
        have hnot : a ∉ seen := fun ha => Nat.lt_irrefl _ (hord.source_lt ha)
        obtain ⟨c, hc, hcb, hor⟩ := half.given_up b hg hgold hgr a hnew hnot hconf
        have hca : c.conflicts a = false := by
          by_contra hno
          exact hfirst c hc (by simpa using hno) (preempts_trans hcb hga)
        exact hk.no_rival lam hg hnew (hseen c hc) hconf (hor.resolve_right (by simp [hca])) hcb hca

theorem Halfway.given_up_concat (hg : b ∈ greed) (hgseen : b ∈ seen ++ [new])
    (hgn : b ∉ resolve (seen ++ [new])) (ha : a ∈ cs) (hna : a ∉ seen ++ [new])
    (hafter : new.source < a.source) (hga : b.conflicts a = true) :
    ∃ c ∈ resolve (seen ++ [new]), c.preempts b = true ∧
      (c.conflicts b = true ∨ c.conflicts a = true) := by
  rw [resolve_concat] at hgn ⊢
  have hna' : a ∉ seen := fun hs => hna (by simp [hs])
  rcases consider_cases (resolve seen) new with ⟨⟨c, hc, hcn, hcfirst⟩, heq⟩ | ⟨hfirst, hmem⟩
  · rw [heq] at hgn ⊢
    rcases List.mem_append.mp hgseen with hgseen | hgnew
    · exact half.given_up b hg hgseen hgn a ha hna' hga
    · obtain rfl := List.mem_singleton.mp hgnew
      exact ⟨c, hc, hcfirst, .inl hcn⟩
  · have hself : new ∈ consider (resolve seen) new := (hmem new).mpr (.inr rfl)
    have hgold : b ∈ seen := by
      refine (List.mem_append.mp hgseen).resolve_right fun hlast => ?_
      exact hgn ((hmem b).mpr (.inr (List.mem_singleton.mp hlast)))
    have hwins {c : Candidate} (hc : c ∈ resolve seen) (hconf : c.conflicts new = true) :
        new.preempts c = true :=
      preempts_of_not_preempts (Nat.ne_of_lt (hord.source_lt (resolve_subset hc)))
        (hfirst c hc hconf)
    by_cases hgr : b ∈ resolve seen
    · have hconf : b.conflicts new = true := by
        by_contra hno
        exact hgn ((hmem b).mpr (.inl ⟨hgr, by simpa using hno⟩))
      exact ⟨new, hself, hwins hgr hconf, .inl (conflicts_symm hconf)⟩
    · obtain ⟨c, hc, hcb, hor⟩ := half.given_up b hg hgold hgr a ha hna' hga
      by_cases hcn : c.conflicts new = true
      · -- The rival gives way to the last candidate, which stands between `b` and `a`.
        exact ⟨new, hself, preempts_trans (hwins hc hcn) hcb,
          lam.between b (hin b (by simp [hgold])) new (hin new (by simp)) a ha
            (hord.source_lt hgold) hafter hga c (hin c (by simp [resolve_subset hc]))
            (conflicts_symm hcn)⟩
      · exact ⟨c, (hmem c).mpr (.inl ⟨hc, by simpa using hcn⟩), hcb, hor⟩

end Concat

theorem halfway (h : InOrder cs) (lam : Laminar cs) (hk : Kernel cs greed)
    (hcs : cs = seen ++ rest) : Halfway cs greed seen := by
  induction seen using List.reverseRecOn generalizing rest with
  | nil => exact ⟨by simp [resolve], by simp⟩
  | append_singleton seen new ih =>
    have half := ih (show cs = seen ++ new :: rest by simpa using hcs)
    have hin : ∀ a ∈ seen ++ [new], a ∈ cs := fun a ha => by
      rw [hcs]
      exact List.mem_append_left rest ha
    obtain ⟨hord, -, hlater⟩ := List.pairwise_append.mp (hcs ▸ h)
    refine ⟨fun a ha g hg hgseen hga => ?_, fun g hg hgseen hgn a ha hna hga => ?_⟩
    · exact half.chosen_concat lam hord hin hk ha hg hgseen hga
    · have hrest : a ∈ rest := (List.mem_append.mp (hcs ▸ ha)).resolve_left hna
      exact half.given_up_concat lam hord hin hg hgseen hgn ha hna
        (hlater new (by simp) a hrest) hga

/-- Nothing is chosen that the greedy choice leaves out. -/
theorem resolve_subset_greedy (h : InOrder cs) (lam : Laminar cs) (ha : a ∈ resolve cs) :
    a ∈ greedy cs := by
  have hk := kernel_greedy h
  have hend : Halfway cs (greedy cs) cs := halfway h lam hk (List.append_nil cs).symm
  exact (hk a).mpr ⟨resolve_subset ha, fun g hg hga =>
    hend.chosen a ha g hg ((hk g).mp hg).1 hga⟩

end Selection

end Statechart
