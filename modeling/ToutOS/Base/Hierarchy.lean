import Mathlib.Algebra.Order.BigOperators.Group.Finset
import Mathlib.Data.Finset.Max
import Mathlib.Logic.Function.Basic
import ToutOS.Base.Run

/-!
# Hierarchy — locks that are taken in an order

Every lock has a rank, and who holds locks waits only for locks of a higher rank.  This file provides:

* `Ranked rank held taken` — what everybody holds is ordered, nobody else holds it, and exactly that is
  taken;
* `Ranked.take`, `Ranked.drop` — taking a lock above all others, and giving the last one back;
* `Ranked.goes_on` — if anything is held, somebody who holds something does not wait;
* `runFrom_reaches` — a run to a goal, from the steps that lead towards it.
-/

namespace ToutOS
namespace Base

universe u v w

section Ranked

variable {C : Type u} {L : Type v} {κ : Type w} [LinearOrder κ] {rank : L → κ} {held : C → List L}
  {taken : L → Bool} {c : C} {l : L}

/-- `held c` are the locks that `c` holds, the last one first. -/
structure Ranked (rank : L → κ) (held : C → List L) (taken : L → Bool) : Prop where
  ordered : ∀ c, (held c).Pairwise fun k l => rank l < rank k
  taken_iff : ∀ l, taken l = true ↔ ∃ c, l ∈ held c
  once : ∀ c d l, l ∈ held c → l ∈ held d → c = d
  finite : ∃ S : Finset C, ∀ c ∉ S, held c = []

theorem ranked_empty (rank : L → κ) : Ranked rank (fun _ : C => []) fun _ => false :=
  ⟨fun _ => List.Pairwise.nil, fun _ => by simp, fun _ _ _ h => (List.not_mem_nil h).elim,
    ⟨∅, fun _ _ => rfl⟩⟩

section Update

variable [DecidableEq C]

theorem mem_update {new : List L} {d : C} {k : L} :
    k ∈ Function.update held c new d ↔ if d = c then k ∈ new else k ∈ held d := by
  by_cases hd : d = c
  · rw [if_pos hd, hd, Function.update_self]
  · rw [if_neg hd, Function.update_of_ne hd]

theorem finite_update (h : ∃ S : Finset C, ∀ d ∉ S, held d = []) (new : List L) :
    ∃ S : Finset C, ∀ d ∉ S, Function.update held c new d = [] := by
  obtain ⟨S, hS⟩ := h
  refine ⟨insert c S, fun d hd => ?_⟩
  rw [Finset.mem_insert, not_or] at hd
  rw [Function.update_of_ne hd.1]
  exact hS d hd.2

/-- Taking a lock that is free and above all that are held. -/
theorem Ranked.take [DecidableEq L] (h : Ranked rank held taken) (hfree : taken l = false)
    (hup : ∀ k ∈ held c, rank k < rank l) :
    Ranked rank (Function.update held c (l :: held c)) (Function.update taken l true) := by
  have hnobody : ∀ d, l ∉ held d := by
    intro d hd
    rw [(h.taken_iff l).2 ⟨d, hd⟩] at hfree
    cases hfree
  have hmem : ∀ d k,
      k ∈ Function.update held c (l :: held c) d ↔ (k = l ∧ d = c) ∨ k ∈ held d := by
    intro d k
    rw [mem_update]
    split_ifs with hd
    · rw [List.mem_cons, hd, and_iff_left rfl]
    · rw [or_iff_right fun hk => hd hk.2]
  refine ⟨fun d => ?_, fun k => ?_, fun d e k hd he => ?_, finite_update h.finite _⟩
  · by_cases hd : d = c
    · rw [hd, Function.update_self]
      exact List.pairwise_cons.2 ⟨hup, h.ordered c⟩
    · rw [Function.update_of_ne hd]
      exact h.ordered d
  · by_cases hk : k = l
    · rw [hk, Function.update_self]
      exact iff_of_true rfl ⟨c, (hmem c l).2 (Or.inl ⟨rfl, rfl⟩)⟩
    · rw [Function.update_of_ne hk, h.taken_iff]
      refine exists_congr fun d => ?_
      rw [hmem, or_iff_right fun hkl => hk hkl.1]
  · rcases (hmem d k).1 hd with ⟨rfl, rfl⟩ | hold
    · rcases (hmem e k).1 he with ⟨-, rfl⟩ | he
      · rfl
      · exact absurd he (hnobody e)
    · rcases (hmem e k).1 he with ⟨rfl, -⟩ | he
      · exact absurd hold (hnobody d)
      · exact h.once d e k hold he

/-- Giving back the lock that has been taken last. -/
theorem Ranked.drop [DecidableEq L] {outer : List L} (h : Ranked rank held taken) (hc : held c = l :: outer) :
    Ranked rank (Function.update held c outer) (Function.update taken l false) := by
  obtain ⟨hup, houter⟩ := List.pairwise_cons.1 (hc ▸ h.ordered c)
  have hout : l ∉ outer := fun hl => lt_irrefl _ (hup l hl)
  have hmem : ∀ d k, k ∈ Function.update held c outer d ↔ k ≠ l ∧ k ∈ held d := by
    intro d k
    rw [mem_update]
    split_ifs with hd
    · rw [hd, hc, List.mem_cons]
      constructor
      · intro hk
        exact ⟨fun hkl => hout (hkl ▸ hk), Or.inr hk⟩
      · rintro ⟨hkl, hk | hk⟩
        · exact absurd hk hkl
        · exact hk
    · refine (and_iff_right_of_imp fun hk hkl => ?_).symm
      exact hd (h.once d c l (hkl ▸ hk) (hc ▸ List.mem_cons_self))
  refine ⟨fun d => ?_, fun k => ?_, fun d e k hd he => ?_, finite_update h.finite _⟩
  · by_cases hd : d = c
    · rw [hd, Function.update_self]
      exact houter
    · rw [Function.update_of_ne hd]
      exact h.ordered d
  · by_cases hk : k = l
    · rw [hk, Function.update_self]
      refine iff_of_false Bool.false_ne_true ?_
      rintro ⟨d, hd⟩
      exact ((hmem d l).1 hd).1 rfl
    · rw [Function.update_of_ne hk, h.taken_iff]
      refine exists_congr fun d => ?_
      rw [hmem, and_iff_right hk]
  · exact h.once d e k ((hmem d k).1 hd).2 ((hmem e k).1 he).2

end Update

/-- Among all locks that are held there is one of the highest rank. -/
theorem Ranked.exists_top (h : Ranked rank held taken) (hl : taken l = true) :
    ∃ c k, k ∈ held c ∧ ∀ d j, j ∈ held d → rank j ≤ rank k := by
  obtain ⟨S, hS⟩ := h.finite
  -- of everybody's locks, the last one has the highest rank
  have hcpu : ∀ d j, j ∈ held d → d ∈ S ∧ ∃ k, (held d).head? = some k ∧ rank j ≤ rank k := by
    intro d j hj
    refine ⟨by_contra fun hd => ?_, ?_⟩
    · rw [hS d hd] at hj
      exact List.not_mem_nil hj
    · cases hheld : held d with
      | nil =>
          rw [hheld] at hj
          exact (List.not_mem_nil hj).elim
      | cons k outer =>
          refine ⟨k, rfl, ?_⟩
          rw [hheld] at hj
          rcases List.mem_cons.1 hj with rfl | hj
          · exact le_refl _
          · exact ((List.pairwise_cons.1 (hheld ▸ h.ordered d)).1 j hj).le
  obtain ⟨c₀, hc₀⟩ := (h.taken_iff l).1 hl
  obtain ⟨hmem, k₀, hk₀, -⟩ := hcpu c₀ l hc₀
  obtain ⟨c, hc, hmax⟩ := (S.filter fun d => held d ≠ []).exists_max_image
    (fun d => ((held d).head?.map rank).getD (rank l)) ⟨c₀, by
      rw [Finset.mem_filter]
      exact ⟨hmem, List.ne_nil_of_mem hc₀⟩⟩
  obtain ⟨k, outer, hk⟩ := List.exists_cons_of_ne_nil (Finset.mem_filter.1 hc).2
  refine ⟨c, k, hk ▸ List.mem_cons_self, fun d j hj => ?_⟩
  obtain ⟨hd, i, hi, hle⟩ := hcpu d j hj
  have := hmax d (Finset.mem_filter.2 ⟨hd, List.ne_nil_of_mem hj⟩)
  rw [hi, hk] at this
  exact hle.trans this

/-- Who waits, waits for a lock that is taken, and above all that it holds itself.  So if anything is
held at all, somebody who holds something goes on. -/
theorem Ranked.goes_on (h : Ranked rank held taken) (waits : C → L → Prop)
    (hwaits : ∀ c l, waits c l → taken l = true ∧ ∀ k ∈ held c, rank k < rank l)
    (hl : taken l = true) : ∃ c, held c ≠ [] ∧ ∀ l, ¬waits c l := by
  obtain ⟨c, k, hk, htop⟩ := h.exists_top hl
  refine ⟨c, List.ne_nil_of_mem hk, fun j hj => ?_⟩
  obtain ⟨htaken, hup⟩ := hwaits c j hj
  obtain ⟨d, hd⟩ := (h.taken_iff j).1 htaken
  exact (htop d j hd).not_gt (hup k hk)

end Ranked

section Reaches

variable {σ : Type u} {α : Type v} {step : σ → α → Option σ}

/-- As long as the goal is not reached, there is a step towards it. -/
theorem runFrom_reaches {I G : σ → Prop} {Q : α → Prop} (M : σ → Nat)
    (hstep : ∀ s, I s → ¬G s → ∃ a s', Q a ∧ step s a = some s' ∧ I s' ∧ M s' < M s) {s : σ}
    (hs : I s) : ∃ as t, (∀ a ∈ as, Q a) ∧ runFrom step s as = some t ∧ I t ∧ G t := by
  induction hm : M s using Nat.strong_induction_on generalizing s with
  | _ m ih =>
      by_cases hgoal : G s
      · exact ⟨[], s, fun _ ha => (List.not_mem_nil ha).elim, rfl, hs, hgoal⟩
      · obtain ⟨a, s', ha, hstep', hs', hless⟩ := hstep s hs hgoal
        obtain ⟨as, t, has, hrun, ht, hg⟩ := ih (M s') (hm ▸ hless) hs' rfl
        refine ⟨a :: as, t, fun b hb => ?_, runFrom_cons.2 ⟨s', hstep', hrun⟩, ht, hg⟩
        rcases List.mem_cons.1 hb with rfl | hb
        · exact ha
        · exact has b hb

end Reaches

end Base
end ToutOS
