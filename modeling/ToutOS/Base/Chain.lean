import Mathlib.Data.List.Basic
import Mathlib.Data.List.Nodup
import Mathlib.Logic.Function.Basic

/-!
# Chain — singly linked lists threaded through a `next` map

`Chain next null p l e` says that following `next` from `p` visits exactly the nodes of `l`, none of
them `null`, and stops at `e`.  A null-terminated list with head `p` is `Chain next null p l null`.

The file provides the rules by which pointer updates are followed on the list:

* `chain_append` — cut a chain in two;
* `chain_congr` — an update of nodes outside the chain does not matter;
* `chain_redirect` — redirecting the last node;
* `collect` — the list read back with a bound on its length.
-/

namespace ToutOS
namespace Base

universe u

variable {α : Type u}

/-- From `p`, the nodes visited are those of `l`, and the walk stops at `e`. -/
def Chain (next : α → α) (null : α) : α → List α → α → Prop
  | p, [], e => p = e
  | p, q :: l, e => p = q ∧ q ≠ null ∧ Chain next null (next q) l e

variable {next next' : α → α} {null : α}

theorem chain_append {p e : α} {l m : List α} :
    Chain next null p (l ++ m) e ↔ ∃ x, Chain next null p l x ∧ Chain next null x m e := by
  induction l generalizing p with
  | nil => simp [Chain]
  | cons q l ih =>
      simp only [List.cons_append, Chain, ih]
      constructor
      · rintro ⟨hp, hq, x, hl, hm⟩
        exact ⟨x, ⟨hp, hq, hl⟩, hm⟩
      · rintro ⟨x, ⟨hp, hq, hl⟩, hm⟩
        exact ⟨hp, hq, x, hl, hm⟩

/-- A chain depends on `next` only at its own nodes. -/
theorem chain_congr {p e : α} {l : List α} (hagree : ∀ q ∈ l, next' q = next q)
    (h : Chain next null p l e) : Chain next' null p l e := by
  induction l generalizing p with
  | nil => exact h
  | cons q l ih =>
      obtain ⟨rfl, hq, hl⟩ := h
      refine ⟨rfl, hq, ?_⟩
      rw [hagree p List.mem_cons_self]
      exact ih (fun x hx => hagree x (List.mem_cons_of_mem _ hx)) hl

theorem chain_ne_null {p e : α} {l : List α} (h : Chain next null p l e) : null ∉ l := by
  induction l generalizing p with
  | nil => simp
  | cons q l ih =>
      obtain ⟨-, hq, hl⟩ := h
      simp only [List.mem_cons, not_or]
      exact ⟨fun h => hq h.symm, ih hl⟩

/-- The head of a nonempty chain is its first node. -/
theorem chain_head_mem {p e : α} {l : List α} (h : Chain next null p l e) (hl : l ≠ []) :
    p ∈ l := by
  cases l with
  | nil => exact absurd rfl hl
  | cons q l =>
      obtain ⟨rfl, -, -⟩ := h
      exact List.mem_cons_self

section Update

variable [DecidableEq α]

/-- Updating a node outside the chain. -/
theorem chain_update {p e q x : α} {l : List α} (hq : q ∉ l) (h : Chain next null p l e) :
    Chain (Function.update next q x) null p l e := by
  refine chain_congr ?_ h
  intro y hy
  have hyq : y ≠ q := by
    rintro rfl
    exact hq hy
  simp [hyq]

/-- Redirecting the last node of a chain moves its end. -/
theorem chain_redirect {p e q x : α} {l : List α} (hq : q ∉ l)
    (h : Chain next null p (l ++ [q]) e) :
    Chain (Function.update next q x) null p (l ++ [q]) x := by
  obtain ⟨y, hl, hy, hne, -⟩ := chain_append.1 h
  refine chain_append.2 ⟨y, chain_update hq hl, hy, hne, ?_⟩
  simp [Chain]

/-! ## Reading a list back -/

/-- The nodes from `p` on, at most `fuel` of them. -/
def collect (next : α → α) (null : α) : Nat → α → List α
  | 0, _ => []
  | fuel + 1, p => if p = null then [] else p :: collect next null fuel (next p)

theorem collect_eq {p : α} {l : List α} {fuel : Nat} (h : Chain next null p l null)
    (hfuel : l.length ≤ fuel) : collect next null fuel p = l := by
  induction l generalizing p fuel with
  | nil =>
      cases fuel with
      | zero => rfl
      | succ fuel =>
          have hp : p = null := h
          simp [collect, hp]
  | cons q l ih =>
      cases fuel with
      | zero => simp at hfuel
      | succ fuel =>
          obtain ⟨rfl, hq, hl⟩ := h
          simp only [collect, hq, if_false]
          rw [ih hl (by simpa using hfuel)]

end Update

end Base
end ToutOS
