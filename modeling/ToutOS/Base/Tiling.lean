import Mathlib.Data.List.Basic
import Mathlib.Data.List.DropRight

/-!
# Tiling — an address range cut into consecutive blocks

A list of blocks, each with a length, is laid out from an address on without gaps.  `placed` pairs
every block with the address it gets, and `Tiles At a bs e` says that the blocks fill `[a, e)` and
that `At` holds of each of them at its address.

The rules follow the list: `tiles_append` cuts a tiling in two, `tiles_congr` changes what is known
of the single blocks, and `mem_placed` finds a block together with its neighbours.
-/

namespace ToutOS
namespace Base

universe u

variable {β : Type u} (len : β → Nat)

/-- The total length of the blocks. -/
def span : List β → Nat
  | [] => 0
  | b :: bs => len b + span bs

/-- The blocks with their addresses, the first one at `a`. -/
def placed : Nat → List β → List (Nat × β)
  | _, [] => []
  | a, b :: bs => (a, b) :: placed (a + len b) bs

/-- The blocks fill `[a, e)`, and `At` holds of each one at its address. -/
def Tiles (At : Nat → β → Prop) (a : Nat) (bs : List β) (e : Nat) : Prop :=
  (∀ x b, (x, b) ∈ placed len a bs → At x b) ∧ a + span len bs = e

@[simp] theorem span_nil : span len [] = 0 := rfl

@[simp] theorem span_cons (b : β) (bs : List β) : span len (b :: bs) = len b + span len bs := rfl

@[simp] theorem span_append (bs cs : List β) :
    span len (bs ++ cs) = span len bs + span len cs := by
  induction bs with
  | nil => simp
  | cons b bs ih => simp [ih, Nat.add_assoc]

@[simp] theorem placed_nil (a : Nat) : placed len a [] = [] := rfl

@[simp] theorem placed_cons (a : Nat) (b : β) (bs : List β) :
    placed len a (b :: bs) = (a, b) :: placed len (a + len b) bs := rfl

@[simp] theorem placed_append (a : Nat) (bs cs : List β) :
    placed len a (bs ++ cs) = placed len a bs ++ placed len (a + span len bs) cs := by
  induction bs generalizing a with
  | nil => simp
  | cons b bs ih => simp [ih, Nat.add_assoc]

variable {len} {At At' : Nat → β → Prop}

/-- A placed block and its neighbours. -/
theorem mem_placed {a x : Nat} {b : β} {bs : List β} :
    (x, b) ∈ placed len a bs ↔ ∃ pre post, bs = pre ++ b :: post ∧ x = a + span len pre := by
  constructor
  · induction bs generalizing a with
    | nil => simp
    | cons c bs ih =>
        intro h
        rcases List.mem_cons.1 h with heq | hmem
        · obtain ⟨rfl, rfl⟩ := Prod.mk.inj heq
          exact ⟨[], bs, rfl, by simp⟩
        · obtain ⟨pre, post, rfl, rfl⟩ := ih hmem
          exact ⟨c :: pre, post, rfl, by simp [Nat.add_assoc]⟩
  · rintro ⟨pre, post, rfl, rfl⟩
    simp

theorem placed_bounds {a x : Nat} {b : β} {bs : List β} (h : (x, b) ∈ placed len a bs) :
    a ≤ x ∧ x + len b ≤ a + span len bs := by
  obtain ⟨pre, post, rfl, rfl⟩ := mem_placed.1 h
  simp only [span_append, span_cons]
  omega

/-- Two placed blocks are the same one or lie apart. -/
theorem placed_apart {a x y : Nat} {b c : β} {bs : List β} (hb : (x, b) ∈ placed len a bs)
    (hc : (y, c) ∈ placed len a bs) : (x = y ∧ b = c) ∨ x + len b ≤ y ∨ y + len c ≤ x := by
  induction bs generalizing a with
  | nil => simp at hb
  | cons d bs ih =>
      rcases List.mem_cons.1 hb with hxb | hb' <;> rcases List.mem_cons.1 hc with hyc | hc'
      · obtain ⟨rfl, rfl⟩ := Prod.mk.inj hxb
        obtain ⟨rfl, rfl⟩ := Prod.mk.inj hyc
        exact Or.inl ⟨rfl, rfl⟩
      · obtain ⟨rfl, rfl⟩ := Prod.mk.inj hxb
        exact Or.inr (Or.inl (placed_bounds hc').1)
      · obtain ⟨rfl, rfl⟩ := Prod.mk.inj hyc
        exact Or.inr (Or.inr (placed_bounds hb').1)
      · exact ih hb' hc'

/-- The addresses go up. -/
theorem placed_sorted (hpos : ∀ b, 0 < len b) (bs : List β) :
    ∀ a, (placed len a bs).Pairwise fun x y => x.1 < y.1 := by
  induction bs with
  | nil => exact fun _ => List.Pairwise.nil
  | cons b bs ih =>
      intro a
      refine List.Pairwise.cons ?_ (ih (a + len b))
      rintro ⟨y, c⟩ hc
      have hge := (placed_bounds hc).1
      have hb := hpos b
      omega

/-- Every address of the range is in one of the blocks. -/
theorem placed_cover {a y : Nat} {bs : List β} (h₁ : a ≤ y) (h₂ : y < a + span len bs) :
    ∃ x b, (x, b) ∈ placed len a bs ∧ x ≤ y ∧ y < x + len b := by
  induction bs generalizing a with
  | nil =>
      simp only [span_nil] at h₂
      omega
  | cons b bs ih =>
      by_cases hy : y < a + len b
      · exact ⟨a, b, by simp, h₁, hy⟩
      · simp only [span_cons] at h₂
        obtain ⟨x, c, hc, hx⟩ := @ih (a + len b) (by omega) (by omega)
        exact ⟨x, c, List.mem_cons_of_mem _ hc, hx⟩

theorem tiles_nil {a e : Nat} : Tiles len At a [] e ↔ a = e := by
  simp [Tiles]

theorem tiles_cons {a e : Nat} {b : β} {bs : List β} :
    Tiles len At a (b :: bs) e ↔ At a b ∧ Tiles len At (a + len b) bs e := by
  simp only [Tiles, placed_cons, List.mem_cons, span_cons, Nat.add_assoc]
  constructor
  · rintro ⟨h, he⟩
    exact ⟨h a b (Or.inl rfl), fun x c hc => h x c (Or.inr hc), he⟩
  · rintro ⟨hb, h, he⟩
    refine ⟨fun x c hc => ?_, he⟩
    rcases hc with heq | hc
    · obtain ⟨rfl, rfl⟩ := Prod.mk.inj heq
      exact hb
    · exact h x c hc

theorem tiles_append {a e : Nat} {bs cs : List β} :
    Tiles len At a (bs ++ cs) e ↔ ∃ x, Tiles len At a bs x ∧ Tiles len At x cs e := by
  simp only [Tiles, placed_append, List.mem_append, span_append]
  constructor
  · rintro ⟨h, he⟩
    exact ⟨a + span len bs, ⟨fun x b hb => h x b (Or.inl hb), rfl⟩,
      fun x b hb => h x b (Or.inr hb), by omega⟩
  · rintro ⟨x, ⟨hbs, rfl⟩, hcs, he⟩
    exact ⟨fun y b hb => hb.elim (hbs y b) (hcs y b), by omega⟩

theorem tiles_concat {a e : Nat} {b : β} {bs : List β} :
    Tiles len At a (bs ++ [b]) e ↔ ∃ x, Tiles len At a bs x ∧ At x b ∧ x + len b = e := by
  simp only [tiles_append, tiles_cons, tiles_nil]

/-- What is known of the single blocks may change, block by block. -/
theorem tiles_congr {a e : Nat} {bs : List β} (h : Tiles len At a bs e)
    (hAt : ∀ x b, (x, b) ∈ placed len a bs → At x b → At' x b) : Tiles len At' a bs e :=
  ⟨fun x b hb => hAt x b hb (h.1 x b hb), h.2⟩

/-! ## Maximal runs -/

/-- What remains in front of the longest run of `p` at the end does not end with `p`. -/
theorem rdropWhile_getLast? {p : β → Bool} {bs : List β} {b : β}
    (h : b ∈ (bs.rdropWhile p).getLast?) : p b = false := by
  have hne : bs.rdropWhile p ≠ [] := by
    intro hnil
    simp [hnil] at h
  have hlast := List.rdropWhile_last_not p bs hne
  rw [List.getLast?_eq_some_getLast hne, Option.mem_some_iff] at h
  simpa [h] using hlast

theorem dropWhile_head? {p : β → Bool} {bs : List β} {b : β}
    (h : b ∈ (bs.dropWhile p).head?) : p b = false := by
  have := List.head?_dropWhile_not p bs
  rw [Option.mem_def] at h
  simpa [h] using this

end Base
end ToutOS
