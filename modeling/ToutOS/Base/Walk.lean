import Mathlib.Data.Fintype.Card
import Mathlib.Data.Set.Finite.Basic
import Mathlib.Logic.Relation

/-!
# Walk — following links until there is none

`next a` is the node that `a` links to, or `none` where the walk stops.  Nothing is known of the links.

* `Links`, `Reaches` — one link, and any number of them;
* `walk` — the nodes that are visited, with a bound on their number;
* `Stops` — the walk comes to an end;
* `Stops.no_cycle` — then no node that is reached lies on a cycle;
* `stops_iff_no_cycle` — where the nodes that link on are finitely many, that is enough;
* `not_reachesCycle_of_increasing` — links that go up, for instance.
-/

namespace ToutOS
namespace Base

open Relation

universe u

variable {α : Type u} (next : α → Option α)

/-- Node `a` links to node `b`. -/
def Links (a b : α) : Prop := next a = some b

/-- The nodes visited from `a` on, if they are fewer than the fuel. -/
def walk : Nat → α → Option (List α)
  | 0, _ => none
  | fuel + 1, a =>
      match next a with
      | none => some []
      | some b => (walk fuel b).map (a :: ·)

/-- The walk from `a` comes to an end. -/
def Stops (a : α) : Prop := ∃ fuel, (walk next fuel a).isSome = true

/-- A node that is reached from `a` lies on a cycle. -/
def ReachesCycle (a : α) : Prop := ∃ c, ReflTransGen (Links next) a c ∧ TransGen (Links next) c c

variable {next} {a b : α}

theorem Links.unique {c : α} (hb : Links next a b) (hc : Links next a c) : b = c :=
  Option.some.inj (hb.symm.trans hc)

theorem stops_of_none (h : next a = none) : Stops next a := ⟨1, by simp [walk, h]⟩

theorem stops_iff_of_links (h : Links next a b) : Stops next a ↔ Stops next b := by
  have hnext : next a = some b := h
  constructor
  · rintro ⟨fuel, hfuel⟩
    cases fuel with
    | zero => cases hfuel
    | succ fuel => exact ⟨fuel, by simpa [walk, hnext] using hfuel⟩
  · rintro ⟨fuel, hfuel⟩
    exact ⟨fuel + 1, by simpa [walk, hnext] using hfuel⟩

/-- The way round a cycle begins with a link to a node from which the cycle is reached. -/
theorem reachesCycle_iff_of_links (h : Links next a b) : ReachesCycle next a ↔ ReachesCycle next b := by
  constructor
  · rintro ⟨c, hreach, hcycle⟩
    rcases ReflTransGen.cases_head hreach with rfl | ⟨b', hb', hrest⟩
    · -- `a` itself is on the cycle, and so is `b`
      obtain ⟨b', hb', hback⟩ := TransGen.head'_iff.1 hcycle
      obtain rfl := h.unique hb'
      exact ⟨a, hback, hcycle⟩
    · obtain rfl := h.unique hb'
      exact ⟨c, hrest, hcycle⟩
  · rintro ⟨c, hreach, hcycle⟩
    exact ⟨c, ReflTransGen.head h hreach, hcycle⟩

theorem not_reachesCycle_of_none (h : next a = none) : ¬ReachesCycle next a := by
  rintro ⟨c, hreach, hcycle⟩
  have hno : ∀ b, ¬Links next a b := fun b hb => by cases h.symm.trans hb
  rcases ReflTransGen.cases_head hreach with rfl | ⟨b, hb, -⟩
  · obtain ⟨b, hb, -⟩ := TransGen.head'_iff.1 hcycle
    exact hno b hb
  · exact hno b hb

/-- A walk that ends has been on no cycle. -/
theorem Stops.no_cycle (h : Stops next a) : ¬ReachesCycle next a := by
  obtain ⟨fuel, hfuel⟩ := h
  induction fuel generalizing a with
  | zero => cases hfuel
  | succ fuel ih =>
      cases hnext : next a with
      | none => exact not_reachesCycle_of_none hnext
      | some b =>
          rw [reachesCycle_iff_of_links hnext]
          exact ih (by simpa [walk, hnext] using hfuel)

/-- With finitely many nodes that link on, a walk that does not end comes round. -/
theorem stops_iff_no_cycle (hfinite : {a | (next a).isSome = true}.Finite) :
    Stops next a ↔ ¬ReachesCycle next a := by
  refine ⟨Stops.no_cycle, fun hacyclic => ?_⟩
  -- the nodes that link on and reach no cycle
  let S : Set α := {c | (next c).isSome = true ∧ ¬ReachesCycle next c}
  have hS : Finite S := (hfinite.subset fun c hc => hc.1).to_subtype
  let below : S → S → Prop := fun c d => TransGen (Links next) d c
  have hirrefl : Std.Irrefl below := ⟨fun c hc => c.2.2 ⟨c, ReflTransGen.refl, hc⟩⟩
  have htrans : IsTrans S below := ⟨fun _ _ _ hcd hde => TransGen.trans hde hcd⟩
  have hwf : WellFounded below := Finite.wellFounded_of_trans_of_irrefl below
  have hall : ∀ c : S, Stops next c := by
    intro c
    induction c using hwf.induction with
    | _ c ih =>
        obtain ⟨d, hd⟩ := Option.isSome_iff_exists.1 c.2.1
        rw [stops_iff_of_links hd]
        by_cases hon : (next d).isSome = true
        · have hd' : ¬ReachesCycle next d := fun hcycle => c.2.2 ((reachesCycle_iff_of_links hd).2 hcycle)
          exact ih ⟨d, hon, hd'⟩ (TransGen.single hd)
        · exact stops_of_none (Option.not_isSome_iff_eq_none.1 hon)
  by_cases hon : (next a).isSome = true
  · exact hall ⟨a, hon, hacyclic⟩
  · exact stops_of_none (Option.not_isSome_iff_eq_none.1 hon)

/-- Links that all go up make no cycle. -/
theorem not_reachesCycle_of_increasing {α : Type u} [Preorder α] {next : α → Option α} {a : α}
    (h : ∀ b c, ReflTransGen (Links next) a b → Links next b c → b < c) : ¬ReachesCycle next a := by
  rintro ⟨c, hreach, hcycle⟩
  have hup : ∀ d, TransGen (Links next) c d → c < d ∧ ReflTransGen (Links next) a d := by
    intro d hd
    induction hd with
    | single hd => exact ⟨h _ _ hreach hd, hreach.tail hd⟩
    | tail _ hlink ih => exact ⟨lt_trans ih.1 (h _ _ ih.2 hlink), ih.2.tail hlink⟩
  exact lt_irrefl c (hup c hcycle).1

end Base
end ToutOS
