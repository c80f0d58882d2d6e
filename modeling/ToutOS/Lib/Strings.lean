import ToutOS.Base.CString
import ToutOS.Base.OrderSign

/-!
# Strings — `strcmp`, `strncmp` and `strncpy` of `include/string.h`

The functions work on memory.  `char` is unsigned, as it is on AArch64.

* `compareChar` — the body of the loop that `strcmp` and `strncmp` share;
* `strcmp`, `strncmp`, `strncpy` — the functions; `StrcmpReturns` — what a call of `strcmp` returns;
* `strcmp_value`, `strcmp_ends`, `strncmp_value`, `strncmp_reads` — on strings, the answer is the
  lexicographic order's;
* `strncpy_eq`, `strncmp_copied` — the copy, and its comparison with the original;
* `string_laws` — the laws of the three functions.
-/

namespace ToutOS
namespace Lib

open Base

/-! ## The functions -/

/-- One iteration of the comparison loops: the value returned, `none` when both pointers go on. -/
def compareChar (c1 c2 : UInt8) : Option Int :=
  if c1 = 0 ∧ c2 = 0 then some 0
  else if c1 = 0 ∧ c2 ≠ 0 then some (-1)
  else if c1 ≠ 0 ∧ c2 = 0 then some 1
  else if c1 = c2 then none
  else if c1 < c2 then some (-1)
  else some 1

/-- `strcmp`, for as many iterations as there is fuel. -/
def strcmp (m : Mem) : Nat → Nat → Nat → Option Int
  | 0, _, _ => none
  | fuel + 1, s1, s2 =>
      match compareChar (m s1) (m s2) with
      | some r => some r
      | none => strcmp m fuel (s1 + 1) (s2 + 1)

/-- `strncmp`, and the addresses it has read. -/
def strncmp (m : Mem) : Nat → Nat → Nat → Int × List Nat
  | 0, _, _ => (0, [])
  | n + 1, s1, s2 =>
      match compareChar (m s1) (m s2) with
      | some r => (r, [s1, s2])
      | none =>
          let (r, reads) := strncmp m n (s1 + 1) (s2 + 1)
          (r, s1 :: s2 :: reads)

/-- The first loop of `strncpy`, `left` bytes before `n`. -/
def strncpyText (dest src : Nat) : Nat → Nat → Mem → Nat × Mem
  | 0, i, m => (i, m)
  | left + 1, i, m =>
      if m (src + i) ≠ 0 then
        strncpyText dest src left (i + 1) (Function.update m (dest + i) (m (src + i)))
      else (i, m)

/-- The second loop. -/
def strncpyPad (dest : Nat) : Nat → Nat → Mem → Mem
  | 0, _, m => m
  | left + 1, i, m => strncpyPad dest left (i + 1) (Function.update m (dest + i) 0)

/-- `strncpy`. -/
def strncpy (m : Mem) (dest src n : Nat) : Nat × Mem :=
  let (i, m) := strncpyText dest src n 0 m
  (dest, strncpyPad dest (n - i) i m)

/-- A call of `strcmp` returns `r`. -/
def StrcmpReturns (m : Mem) (s1 s2 : Nat) (r : Int) : Prop :=
  ∃ fuel, strcmp m fuel s1 s2 = some r

/-! ## Comparing -/

variable {m : Mem} {p q w n fuel : Nat} {s t u : List UInt8} {r : Int}

theorem compareChar_self (c : UInt8) : compareChar c c = if c = 0 then some 0 else none := by
  by_cases hc : c = 0 <;> simp [compareChar, hc]

/-- An iteration that goes on has seen the same character twice. -/
theorem compareChar_none {c1 c2 : UInt8} (h : compareChar c1 c2 = none) : c1 = c2 ∧ c1 ≠ 0 := by
  simp only [compareChar] at h
  split_ifs at h with h₁ h₂ h₃ h₄
  refine ⟨h₄, fun hzero => h₁ ⟨hzero, ?_⟩⟩
  rw [← h₄, hzero]

theorem compareChar_zero_left {d : UInt8} (hd : d ≠ 0) : compareChar 0 d = some (-1) := by
  simp [compareChar, hd]

theorem compareChar_zero_right {c : UInt8} (hc : c ≠ 0) : compareChar c 0 = some 1 := by
  simp [compareChar, hc]

theorem compareChar_of_lt {c d : UInt8} (hc : c ≠ 0) (hlt : c < d) : compareChar c d = some (-1) := by
  have hd : d ≠ 0 := by
    rintro rfl
    exact absurd hlt UInt8.not_lt_zero
  have hne : c ≠ d := Std.ne_of_lt hlt
  simp [compareChar, hc, hd, hne, hlt]

theorem compareChar_of_gt {c d : UInt8} (hd : d ≠ 0) (hgt : d < c) : compareChar c d = some 1 := by
  have hc : c ≠ 0 := by
    rintro rfl
    exact absurd hgt UInt8.not_lt_zero
  have hne : c ≠ d := (Std.ne_of_lt hgt).symm
  have hnot : ¬c < d := Std.not_lt.2 (Std.le_of_lt hgt)
  simp [compareChar, hc, hd, hne, hnot]

/-- An iteration that returns has settled the order. -/
theorem compareChar_some (hs : (0 : UInt8) ∉ s) (ht : (0 : UInt8) ∉ t)
    (h : compareChar (s.headD 0) (t.headD 0) = some r) : r = orderSign (compare s t) := by
  cases s with
  | nil =>
      -- a proper prefix is less
      cases t with
      | nil => exact (Option.some.inj h).symm
      | cons d t =>
          have hd : d ≠ 0 := fun hzero => ht (hzero ▸ List.mem_cons_self)
          exact (Option.some.inj ((compareChar_zero_left hd).symm.trans h)).symm
  | cons c s =>
      have hc : c ≠ 0 := fun hzero => hs (hzero ▸ List.mem_cons_self)
      cases t with
      | nil => exact (Option.some.inj ((compareChar_zero_right hc).symm.trans h)).symm
      | cons d t =>
          have hd : d ≠ 0 := fun hzero => ht (hzero ▸ List.mem_cons_self)
          rw [List.headD_cons, List.headD_cons] at h
          rw [List.compare_cons_cons]
          cases hcd : compare c d with
          | lt =>
              have hless := compareChar_of_lt hc (Std.compare_eq_lt.1 hcd)
              exact (Option.some.inj (hless.symm.trans h)).symm
          | gt =>
              have hgreater := compareChar_of_gt hd (Std.compare_eq_gt.1 hcd)
              exact (Option.some.inj (hgreater.symm.trans h)).symm
          | eq =>
              -- equal characters do not end the loop
              obtain rfl := Std.compare_eq_iff_eq.1 hcd
              rw [compareChar_self, if_neg hc] at h
              cases h

/-- When an iteration goes on, both strings go on, with the same character. -/
theorem both_go_on (hs : StringAt m p s) (ht : StringAt m q t)
    (h : compareChar (m p) (m q) = none) :
    ∃ c s' t', s = c :: s' ∧ t = c :: t' ∧ StringAt m (p + 1) s' ∧ StringAt m (q + 1) t' := by
  obtain ⟨heq, hne⟩ := compareChar_none h
  cases s with
  | nil => exact absurd hs hne
  | cons c s' =>
      cases t with
      | nil => exact absurd (heq.trans ht) hne
      | cons d t' =>
          obtain rfl : c = d := hs.1.symm.trans (heq.trans ht.1)
          exact ⟨c, s', t', rfl, rfl, hs.2.2, ht.2.2⟩

/-- If `strcmp` returns, its answer is that of the order. -/
theorem strcmp_value (hs : StringAt m p s) (ht : StringAt m q t) (h : strcmp m fuel p q = some r) :
    r = orderSign (compare s t) := by
  induction fuel generalizing p q s t with
  | zero => cases h
  | succ fuel ih =>
      rw [strcmp] at h
      cases hchar : compareChar (m p) (m q) with
      | some r' =>
          rw [hchar] at h
          cases h
          rw [hs.head, ht.head] at hchar
          exact compareChar_some hs.zero_notMem ht.zero_notMem hchar
      | none =>
          rw [hchar] at h
          obtain ⟨c, s', t', rfl, rfl, hs', ht'⟩ := both_go_on hs ht hchar
          rw [List.compare_cons_cons, Std.compare_self, Ordering.eq_then]
          exact ih hs' ht' h

/-- `strcmp` returns after at most one iteration more than the shorter string has characters. -/
theorem strcmp_ends (hs : StringAt m p s) (ht : StringAt m q t)
    (hfuel : min s.length t.length < fuel) : ∃ r, strcmp m fuel p q = some r := by
  induction fuel generalizing p q s t with
  | zero => exact absurd hfuel (Nat.not_lt_zero _)
  | succ fuel ih =>
      rw [strcmp]
      cases hchar : compareChar (m p) (m q) with
      | some r => exact ⟨r, rfl⟩
      | none =>
          obtain ⟨c, s', t', rfl, rfl, hs', ht'⟩ := both_go_on hs ht hchar
          simp only [List.length_cons] at hfuel
          exact ih hs' ht' (by omega)

theorem strcmpReturns_iff (hs : StringAt m p s) (ht : StringAt m q t) :
    StrcmpReturns m p q r ↔ r = orderSign (compare s t) := by
  constructor
  · rintro ⟨fuel, h⟩
    exact strcmp_value hs ht h
  · rintro rfl
    obtain ⟨r, h⟩ := strcmp_ends hs ht (Nat.lt_succ_self _)
    exact ⟨_, h.trans (congrArg some (strcmp_value hs ht h))⟩

theorem strncmp_value (hs : StringAt m p s) (ht : StringAt m q t) (n : Nat) :
    (strncmp m n p q).1 = orderSign (compare (s.take n) (t.take n)) := by
  induction n generalizing p q s t with
  | zero => rfl
  | succ n ih =>
      rw [strncmp]
      cases hchar : compareChar (m p) (m q) with
      | some r =>
          -- the truncated strings begin like the whole ones
          have hhead : ∀ v : List UInt8, (v.take (n + 1)).headD 0 = v.headD 0 := fun v => by cases v <;> rfl
          rw [hs.head, ht.head, ← hhead s, ← hhead t] at hchar
          exact compareChar_some (fun h => hs.zero_notMem (List.mem_of_mem_take h))
            (fun h => ht.zero_notMem (List.mem_of_mem_take h)) hchar
      | none =>
          obtain ⟨c, s', t', rfl, rfl, hs', ht'⟩ := both_go_on hs ht hchar
          rw [List.take_succ_cons, List.take_succ_cons, List.compare_cons_cons, Std.compare_self,
            Ordering.eq_then]
          exact ih hs' ht'

/-- `strncmp` reads the characters at the same positions of both strings, each before `n` and none
behind a terminator. -/
theorem strncmp_reads (hs : StringAt m p s) (ht : StringAt m q t) {x : Nat}
    (hx : x ∈ (strncmp m n p q).2) : ∃ i < n, i ≤ s.length ∧ i ≤ t.length ∧ (x = p + i ∨ x = q + i) := by
  induction n generalizing p q s t with
  | zero => cases hx
  | succ n ih =>
      have hfirst : x = p ∨ x = q →
          ∃ i < n + 1, i ≤ s.length ∧ i ≤ t.length ∧ (x = p + i ∨ x = q + i) := fun h =>
        ⟨0, Nat.succ_pos n, Nat.zero_le _, Nat.zero_le _, h⟩
      rw [strncmp] at hx
      cases hchar : compareChar (m p) (m q) with
      | some r =>
          rw [hchar] at hx
          refine hfirst ?_
          simpa using hx
      | none =>
          rw [hchar] at hx
          obtain ⟨c, s', t', rfl, rfl, hs', ht'⟩ := both_go_on hs ht hchar
          simp only [List.mem_cons] at hx
          rcases hx with hx | hx | hx
          · exact hfirst (Or.inl hx)
          · exact hfirst (Or.inr hx)
          · obtain ⟨i, hi, his, hit, hxi⟩ := ih hs' ht' hx
            refine ⟨i + 1, Nat.succ_lt_succ hi, Nat.succ_le_succ his, Nat.succ_le_succ hit, ?_⟩
            rwa [Nat.add_assoc, Nat.add_assoc, Nat.add_comm 1] at hxi

/-- Bytes that agree up to the terminator. -/
theorem strncmp_agree (h : ∀ i < n, (∀ j < i, m (q + j) ≠ 0) → m (p + i) = m (q + i)) :
    (strncmp m n p q).1 = 0 := by
  induction n generalizing p q with
  | zero => rfl
  | succ n ih =>
      have hfirst : m p = m q := h 0 (Nat.succ_pos n) fun j hj => absurd hj (Nat.not_lt_zero j)
      rw [strncmp, hfirst, compareChar_self]
      by_cases hzero : m q = 0
      · rw [if_pos hzero]
      · rw [if_neg hzero]
        refine ih fun i hi hbefore => ?_
        rw [Nat.add_assoc, Nat.add_assoc, Nat.add_comm 1]
        refine h (i + 1) (Nat.succ_lt_succ hi) fun j hj => ?_
        cases j with
        | zero => exact hzero
        | succ j =>
            rw [← Nat.add_assoc, Nat.add_right_comm]
            exact hbefore j (Nat.lt_of_succ_lt_succ hj)

/-! ## Copying -/

/-- The `n` bytes at `d` have none in common with what `strncpy` reads of a string of `length` characters
at `p`. -/
def Separate (d p n length : Nat) : Prop := ∀ i < n, ∀ j < n, j ≤ length → d + i ≠ p + j

/-- `s` truncated to `n` characters and padded with NULs. -/
def padded (s : List UInt8) (n : Nat) : List UInt8 := s.take n ++ List.replicate (n - s.length) 0

theorem length_padded : (padded s n).length = n := by
  rw [padded, List.length_append, List.length_take, List.length_replicate]
  omega

theorem getElem_padded {i : Nat} (hi : i < (padded s n).length) : (padded s n)[i] = s.getD i 0 := by
  simp only [padded]
  rcases Nat.lt_or_ge i s.length with hlt | hge
  · have hn : i < n := by rwa [length_padded] at hi
    rw [List.getElem_append_left (by rw [List.length_take]; omega), List.getElem_take]
    simp [List.getD, hlt]
  · rw [List.getElem_append_right (by rw [List.length_take]; omega), List.getElem_replicate]
    simp [List.getD, hge]

variable {d : Nat} {done rest : List UInt8}

theorem strncpyText_eq (hs : StringAt m p (done ++ rest))
    (hsep : Separate d p n (done ++ rest).length) {left : Nat} (hleft : done.length + left = n) :
    strncpyText d p left done.length (place m d done) =
      ((done ++ rest.take left).length, place m d (done ++ rest.take left)) := by
  induction left generalizing done rest with
  | zero => rw [List.take_zero, List.append_nil, strncpyText]
  | succ left ih =>
      -- the characters still to be read are those of before
      have hbyte : place m d done (p + done.length) = rest.headD 0 := by
        rw [place_of_not_mem, hs.drop.head]
        by_contra hin
        have hne := hsep (p + done.length - d) (by omega) done.length (by omega)
          (by rw [List.length_append]; omega)
        omega
      rw [strncpyText, hbyte]
      cases rest with
      | nil => rw [if_neg (by simp), List.take_nil, List.append_nil]
      | cons c rest =>
          -- the character moves from what is to be read to what has been written
          have hc : c ≠ 0 := hs.drop.2.1
          have hsplit : done ++ c :: rest = (done ++ [c]) ++ rest := List.append_cons ..
          have hlen : (done ++ [c]).length = done.length + 1 := List.length_append
          rw [hsplit] at hs hsep
          have hnext := ih hs hsep (by omega)
          rw [place_concat, hlen] at hnext
          rw [List.headD_cons, if_pos hc, hnext, List.take_succ_cons, ← List.append_cons]

theorem strncpyPad_eq (m : Mem) (d : Nat) (done : List UInt8) (left : Nat) :
    strncpyPad d left done.length (place m d done) = place m d (done ++ List.replicate left 0) := by
  induction left generalizing done with
  | zero => rw [List.replicate_zero, List.append_nil, strncpyPad]
  | succ left ih =>
      have hnext := ih (done ++ [0])
      rw [place_concat, List.length_append, List.length_singleton] at hnext
      rw [strncpyPad, hnext, List.replicate_succ, ← List.append_cons]

/-- `strncpy` writes the padded string, and nothing else. -/
theorem strncpy_eq (hs : StringAt m p s) (hsep : Separate d p n s.length) :
    strncpy m d p n = (d, place m d (padded s n)) := by
  have hall : StringAt m p ([] ++ s) := hs
  have htext := strncpyText_eq hall hsep (Nat.zero_add n)
  rw [place_nil, List.nil_append, List.length_nil] at htext
  have hpad : n - (s.take n).length = n - s.length := by
    rw [List.length_take]
    omega
  rw [strncpy, htext]
  simp only [strncpyPad_eq, hpad, padded]

theorem strncmp_copied (hs : StringAt m p s) (hsep : Separate d p n s.length) :
    (strncmp (place m d (padded s n)) n d p).1 = 0 := by
  refine strncmp_agree fun i hi hbefore => ?_
  -- the string has not ended before `i`
  have hlen : i ≤ s.length := by
    by_contra hlt
    refine hbefore s.length (by omega) ?_
    rw [place_of_not_mem, hs.nul]
    by_contra hin
    rw [length_padded] at hin
    exact hsep (p + s.length - d) (by omega) s.length (by omega) (Nat.le_refl _) (by omega)
  have hcopy : i < (padded s n).length := by rwa [length_padded]
  rw [place_of_mem hcopy, getElem_padded hcopy, place_of_not_mem]
  · rcases Nat.lt_or_eq_of_le hlen with hlt | rfl
    · rw [(hs.byte hlt).1]
      simp [List.getD, hlt]
    · rw [hs.nul]
      simp [List.getD]
  · by_contra hin
    rw [length_padded] at hin
    exact hsep (p + i - d) (by omega) i hi hlen (by omega)

/-! ## The laws -/

/-- What the three functions do with the strings `s` at `p` and `t` at `q`. -/
structure StringLaws (m : Mem) (p q : Nat) (s t : List UInt8) : Prop where
  /-- `strcmp` returns, -/
  returns : ∃ r, StrcmpReturns m p q r
  /-- with the sign of the lexicographic comparison. -/
  sign : ∀ r, StrcmpReturns m p q r → (r = 0 ↔ s = t) ∧ (r < 0 ↔ s < t) ∧ (0 < r ↔ t < s)
  antisymm : ∀ r, StrcmpReturns m p q r → StrcmpReturns m q p (-r)
  trans : ∀ w u, StringAt m w u → ∀ r r', StrcmpReturns m p q r → StrcmpReturns m q w r' → r ≤ 0 →
    r' ≤ 0 → ∃ r'' ≤ 0, StrcmpReturns m p w r'' ∧ (r'' = 0 → r = 0 ∧ r' = 0)
  /-- `strncmp` is `strcmp` of the truncated strings, wherever these are. -/
  truncated : ∀ n m' p' q', StringAt m' p' (s.take n) → StringAt m' q' (t.take n) →
    ∀ r, StrcmpReturns m' p' q' r ↔ r = (strncmp m n p q).1
  /-- It reads positions before `n` and none behind a terminator. -/
  reads : ∀ n, ∀ x ∈ (strncmp m n p q).2, ∃ i < n, i ≤ s.length ∧ i ≤ t.length ∧ (x = p + i ∨ x = q + i)
  /-- `strncpy` writes the `n` bytes of the padded string and no others. -/
  copied : ∀ n d, Separate d p n s.length → ∃ m', strncpy m d p n = (d, m') ∧
    (∀ i < n, m' (d + i) = s.getD i 0) ∧
    (∀ x, x < d ∨ d + n ≤ x → m' x = m x) ∧ (strncmp m' n d p).1 = 0

theorem string_laws (hs : StringAt m p s) (ht : StringAt m q t) : StringLaws m p q s t := by
  have hpq : ∀ r, StrcmpReturns m p q r ↔ r = orderSign (compare s t) := fun r => strcmpReturns_iff hs ht
  refine ⟨⟨_, (hpq _).2 rfl⟩, fun r hr => ?_, fun r hr => ?_, fun w u hu r r' hr hr' hle hle' => ?_,
    fun n m' p' q' hs' ht' r => ?_, fun n x hx => strncmp_reads hs ht hx, fun n d hsep => ?_⟩
  · rw [(hpq r).1 hr]
    exact orderSign_list s t
  · rw [strcmpReturns_iff ht hs, orderSign_compare_swap, (hpq r).1 hr]
  · -- transitivity is that of the order of lists
    obtain rfl := (hpq r).1 hr
    obtain rfl := (strcmpReturns_iff ht hu).1 hr'
    obtain ⟨hle'', hzero⟩ := orderSign_trans hle hle'
    exact ⟨_, hle'', (strcmpReturns_iff hs hu).2 rfl, hzero⟩
  · rw [strcmpReturns_iff hs' ht', strncmp_value hs ht]
  · refine ⟨_, strncpy_eq hs hsep, fun i hi => ?_, fun x hx => ?_, strncmp_copied hs hsep⟩
    · have hlen : i < (padded s n).length := by rwa [length_padded]
      rw [place_of_mem hlen, getElem_padded hlen]
    · exact place_of_not_mem (by rwa [length_padded])

/-- "ab" and "ac" in memory, one behind the other. -/
def stringsSample : Mem := place (fun _ => 0xFF) 0x1000 [0x61, 0x62, 0, 0x61, 0x63, 0]

theorem string_laws_sample :
    StringLaws stringsSample 0x1000 0x1003 [0x61, 0x62] [0x61, 0x63] ∧
      Separate 0x2000 0x1000 5 2 ∧ strcmp stringsSample 3 0x1000 0x1003 = some (-1) ∧
        strncmp stringsSample 1 0x1000 0x1003 = (0, [0x1000, 0x1003]) := by
  refine ⟨string_laws (by decide) (by decide), fun i hi j hj _ => ?_, by decide, by decide⟩
  omega

end Lib
end ToutOS
