import Mathlib.Data.List.Perm.Basic
import Mathlib.Data.Set.Basic
import ToutOS.Base.Run

/-!
# Ledger — what has been taken out of a store and not been given back

The members of a set are in use.  A ledger is opened at some moment, and from then on it lists what is
taken, each thing once, until it is given back.

* `Ledger` — the set in use is the one at the start and what is `held` since then.
* `Ledger.take`, `Ledger.give` — the two kinds of entries.
* `Ledger.eq_iff` — all has been given back exactly when nothing is held.
* `runFrom_tally` — a run in which every step may add to a list: the list is as it has been at the
  start exactly when all steps meet the condition under which they add nothing.
-/

namespace ToutOS
namespace Base

universe u v w

variable {α : Type u} {start live live' : Set α} {held held' : List α} {a : α}

/-- The set `live` is `start` and what is `held`, each thing once. -/
structure Ledger (start : Set α) (held : List α) (live : Set α) : Prop where
  nodup : held.Nodup
  fresh : ∀ a ∈ held, a ∉ start
  live_iff : ∀ a, a ∈ live ↔ a ∈ start ∨ a ∈ held

theorem Ledger.refl (start : Set α) : Ledger start [] start := ⟨List.nodup_nil, by simp, by simp⟩

theorem Ledger.perm (h : Ledger start held live) (hperm : held.Perm held') : Ledger start held' live :=
  ⟨hperm.nodup_iff.1 h.nodup, fun a ha => h.fresh a (hperm.mem_iff.2 ha), fun a => by
    rw [h.live_iff, hperm.mem_iff]⟩

/-- Something is taken that has not been in use. -/
theorem Ledger.take (h : Ledger start held live) (ha : a ∉ live) (hlive : ∀ b, b ∈ live' ↔ b = a ∨ b ∈ live) :
    Ledger start (a :: held) live' := by
  rw [h.live_iff, not_or] at ha
  constructor
  · exact List.nodup_cons.2 ⟨ha.2, h.nodup⟩
  · intro b hb
    rcases List.mem_cons.1 hb with rfl | hb
    · exact ha.1
    · exact h.fresh b hb
  · intro b
    rw [hlive, h.live_iff, List.mem_cons]
    tauto

/-- Something that is held is given back. -/
theorem Ledger.give (h : Ledger start (a :: held) live) (hlive : ∀ b, b ∈ live' ↔ b ∈ live ∧ b ≠ a) :
    Ledger start held live' := by
  obtain ⟨hno, hnodup⟩ := List.nodup_cons.1 h.nodup
  refine ⟨hnodup, fun b hb => h.fresh b (List.mem_cons_of_mem a hb), fun b => ?_⟩
  rw [hlive, h.live_iff, List.mem_cons]
  constructor
  · rintro ⟨hb | hb | hb, hne⟩
    · exact Or.inl hb
    · exact absurd hb hne
    · exact Or.inr hb
  · rintro (hb | hb)
    · refine ⟨Or.inl hb, ?_⟩
      rintro rfl
      exact h.fresh b (by simp) hb
    · refine ⟨Or.inr (Or.inr hb), ?_⟩
      rintro rfl
      exact hno hb

/-- All has been given back exactly when nothing is held. -/
theorem Ledger.eq_iff (h : Ledger start held live) : live = start ↔ held = [] := by
  constructor
  · rintro rfl
    refine List.eq_nil_iff_forall_not_mem.2 fun a ha => h.fresh a ha ?_
    exact (h.live_iff a).2 (Or.inr ha)
  · rintro rfl
    ext a
    simp [h.live_iff]

/-- Two ledgers of the same store hold the same. -/
theorem Ledger.unique (h : Ledger start held live) (h' : Ledger start held' live) : held.Perm held' := by
  refine (List.perm_ext_iff_of_nodup h.nodup h'.nodup).2 fun a => ?_
  have hiff := (h.live_iff a).symm.trans (h'.live_iff a)
  constructor
  · intro ha
    exact (hiff.1 (Or.inr ha)).resolve_left (h.fresh a ha)
  · intro ha
    exact (hiff.2 (Or.inr ha)).resolve_left (h'.fresh a ha)

section Run

variable {σ : Type v} {β : Type w} {step : σ → β → Option σ} {P Q : σ → β → Prop} {I : List α → σ → Prop}

/-- Every step adds to the list, unless it meets `Q`. -/
theorem runFrom_tally
    (hstep : ∀ l s b s', I l s → P s b → step s b = some s' → ∃ new, I (new ++ l) s' ∧ (new = [] ↔ Q s b))
    {l : List α} {s t : σ} {bs : List β} (hs : I l s) (hP : Along step P s bs)
    (hrun : runFrom step s bs = some t) :
    ∃ new, I (new ++ l) t ∧ (new = [] ↔ Along step Q s bs) := by
  induction bs generalizing l s with
  | nil =>
      cases hrun
      exact ⟨[], hs, by simp⟩
  | cons b bs ih =>
      obtain ⟨s', hb, hrest⟩ := runFrom_cons.1 hrun
      obtain ⟨new, hs', hfirst⟩ := hstep l s b s' hs hP.1 hb
      obtain ⟨more, ht, hafter⟩ := ih hs' (hP.2 s' hb) hrest
      refine ⟨more ++ new, by rwa [List.append_assoc], ?_⟩
      rw [List.append_eq_nil_iff, hfirst, hafter, and_comm]
      constructor
      · rintro ⟨hQ, htail⟩
        refine ⟨hQ, fun s₁ hs₁ => ?_⟩
        rw [hb] at hs₁
        exact Option.some.inj hs₁ ▸ htail
      · rintro ⟨hQ, htail⟩
        exact ⟨hQ, htail s' hb⟩

end Run

end Base
end ToutOS
