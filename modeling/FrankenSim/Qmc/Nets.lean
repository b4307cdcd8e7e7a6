import FrankenSim.Library.PascalSystems
import FrankenSim.Qmc.Scramble
import Mathlib.Algebra.Field.ZMod
import Mathlib.Data.Fintype.BigOperators
import Mathlib.Data.Fintype.Prod

/-!
# Digital nets

The points of an aligned block differ in their leading digits, in one dimension as well as
split over the first two. Counting gives one point for every dyadic interval and box.
-/
namespace FrankenSim.Qmc

open Library

section Separation

variable {v : List (BitVec 32)} {n n' : BitVec 32} {m : ℕ}

theorem combine_eq_iff (j : ℕ) (hj : j ≤ 32) :
    combine v (grayCode n) >>> (32 - j) = combine v (grayCode n') >>> (32 - j) ↔
      ∀ i < j, bitOf (combine v (grayCode (n ^^^ n'))) (31 - i) = 0 := by
  rw [leading_eq_iff hj]
  apply forall₂_congr
  intro i _
  rw [grayCode_xor, combine_xor, bitOf_xor, CharTwo.add_eq_zero]

/-- The most significant bit in which two points of a block differ. -/
theorem exists_top_of_block (hblock : n.toNat / 2 ^ m = n'.toNat / 2 ^ m) (hne : n ≠ n') :
    ∃ t < 32, t < m ∧ bitOf (grayCode (n ^^^ n')) t = 1 ∧
      ∀ k, t < k → bitOf (grayCode (n ^^^ n')) k = 0 := by
  obtain ⟨t, ht, htop, hlast⟩ := exists_top (x := n ^^^ n') fun hzero => hne (xor_eq_zero hzero)
  refine ⟨t, ht, ?_, ?_, fun k hk => ?_⟩
  · by_contra hge
    rw [bitOf_xor_of_block hblock (not_lt.1 hge)] at htop
    exact absurd htop (by decide)
  · rw [bitOf_grayCode, htop, hlast (t + 1) (by omega), add_zero]
  · rw [bitOf_grayCode, hlast k hk, hlast (k + 1) (by omega), add_zero]

/-- In one dimension, points of a block differ in their leading digits. -/
theorem separated (h : Unitriangular v) (hm : m ≤ 32) (hblock : n.toNat / 2 ^ m = n'.toNat / 2 ^ m)
    (hleading : combine v (grayCode n) >>> (32 - m) = combine v (grayCode n') >>> (32 - m)) :
    n = n' := by
  by_contra hne
  obtain ⟨t, ht, htm, htop, hlast⟩ := exists_top_of_block hblock hne
  have hzero := (combine_eq_iff m hm).1 hleading t htm
  rw [bitOf_combine_top h ht htop hlast] at hzero
  exact absurd hzero (by decide)

/-- Over the first two dimensions, points of a block differ in their leading digits, however
these are split. -/
theorem separated_pair {a b : ℕ} (hab : a + b ≤ 32)
    (hblock : n.toNat / 2 ^ (a + b) = n'.toNat / 2 ^ (a + b))
    (hfirst : combine vanDerCorput (grayCode n) >>> (32 - a) =
      combine vanDerCorput (grayCode n') >>> (32 - a))
    (hsecond : combine (directionsUpTo 1 0 [1] 32) (grayCode n) >>> (32 - b) =
      combine (directionsUpTo 1 0 [1] 32) (grayCode n') >>> (32 - b)) : n = n' := by
  rw [combine_eq_iff a (by omega)] at hfirst
  rw [combine_eq_iff b (by omega)] at hsecond
  by_contra hne
  obtain ⟨t, ht, htm, htop, hlast⟩ := exists_top_of_block hblock hne
  generalize grayCode (n ^^^ n') = gray at hfirst hsecond htop hlast
  have hlow : ∀ k < a, bitOf gray k = 0 := by
    intro k hk
    have hdigit := hfirst k hk
    rw [bitOf_combine, Finset.sum_eq_single k] at hdigit
    · rwa [bitOf_vanDerCorput (by omega), if_pos rfl, mul_one] at hdigit
    · intro i hi hik
      rw [Finset.mem_range] at hi
      rw [bitOf_vanDerCorput hi, if_neg (by omega), mul_zero]
    · intro hnot
      exact absurd (Finset.mem_range.2 (by omega)) hnot
  have hpascal : ∀ j < b, ∑ k ∈ Finset.range (a + b), (k.choose j : ZMod 2) * bitOf gray k = 0 := by
    intro j hj
    have hdigit := hsecond j hj
    rw [bitOf_combine] at hdigit
    rw [← hdigit, ← Finset.sum_subset (Finset.range_subset_range.2 hab)]
    · apply Finset.sum_congr rfl
      intro k hk
      rw [Finset.mem_range] at hk
      rw [bitOf_pascal (by omega) (by omega), mul_comm]
    · intro k _ hk
      rw [Finset.mem_range, not_lt] at hk
      rw [hlast k (by omega), zero_mul]
  have hzero := pascal_system hlow hpascal t htm
  rw [htop] at hzero
  exact absurd hzero (by decide)

end Separation

section Counting

/-- As many cells as indices, and no two indices in the same cell. -/
theorem existsUnique_of_separated {C : Type} [Fintype C] {m block : ℕ} (hm : m ≤ 32)
    (hblock : block < 2 ^ (32 - m)) (cell : BitVec 32 → C) (hcard : Fintype.card C = 2 ^ m)
    (hseparated : ∀ n n', n.toNat / 2 ^ m = block → n'.toNat / 2 ^ m = block →
      cell n = cell n' → n = n') (c : C) :
    ∃! n : BitVec 32, n.toNat / 2 ^ m = block ∧ cell n = c := by
  have hindex : ∀ i : Fin (2 ^ m), (BitVec.ofNat 32 (block * 2 ^ m + i)).toNat =
      block * 2 ^ m + i := by
    intro i
    rw [BitVec.toNat_ofNat, Nat.mod_eq_of_lt]
    calc block * 2 ^ m + i < block * 2 ^ m + 2 ^ m := by omega
      _ = (block + 1) * 2 ^ m := by ring
      _ ≤ 2 ^ (32 - m) * 2 ^ m := Nat.mul_le_mul_right _ hblock
      _ = 2 ^ 32 := by rw [← pow_add, Nat.sub_add_cancel hm]
  have hinside : ∀ i : Fin (2 ^ m), (BitVec.ofNat 32 (block * 2 ^ m + i)).toNat / 2 ^ m = block := by
    intro i
    rw [hindex, Nat.div_eq_of_lt_le]
    · omega
    · rw [Nat.succ_mul]
      omega
  have hbijective : Function.Bijective fun i : Fin (2 ^ m) =>
      cell (BitVec.ofNat 32 (block * 2 ^ m + i)) := by
    rw [Fintype.bijective_iff_injective_and_card]
    refine ⟨fun i j hij => ?_, by rw [Fintype.card_fin, hcard]⟩
    have heq := congrArg BitVec.toNat (hseparated _ _ (hinside i) (hinside j) hij)
    rw [hindex, hindex] at heq
    exact Fin.ext (by omega)
  obtain ⟨i, hi⟩ := hbijective.2 c
  refine ⟨BitVec.ofNat 32 (block * 2 ^ m + i), ⟨hinside i, hi⟩, ?_⟩
  rintro n ⟨hn, hcell⟩
  exact hseparated _ _ hn (hinside i) (hcell.trans hi.symm)

def leadingPart (x : BitVec 32) {j : ℕ} (hj : j ≤ 32) : Fin (2 ^ j) :=
  ⟨x.toNat / 2 ^ (32 - j), by
    rw [Nat.div_lt_iff_lt_mul (by positivity), ← pow_add, Nat.add_sub_cancel' hj]
    exact x.isLt⟩

/-- The dyadic interval of a coordinate is its leading part. -/
theorem mem_interval_iff {x : BitVec 32} {j i : ℕ} (hj : j ≤ 32) :
    ((i : ℚ) / 2 ^ j ≤ x.toNat / 4294967296 ∧ (x.toNat : ℚ) / 4294967296 < (i + 1) / 2 ^ j) ↔
      x.toNat / 2 ^ (32 - j) = i := by
  have hscale : (4294967296 : ℚ) = 2 ^ (32 - j) * 2 ^ j := by
    rw [← pow_add, Nat.sub_add_cancel hj]
    norm_num
  have hpos : (0 : ℚ) < 2 ^ j := by positivity
  have hcell : (0 : ℚ) < 2 ^ (32 - j) := by positivity
  rw [hscale, ← div_div, div_le_div_iff_of_pos_right hpos, div_lt_div_iff_of_pos_right hpos,
    le_div_iff₀ hcell, div_lt_iff₀ hcell, Nat.div_eq_iff (by positivity)]
  norm_cast
  rw [Nat.succ_mul]
  have := Nat.two_pow_pos (32 - j)
  omega

end Counting

section Generator

theorem odd_of_initialValuesOk {m : List (BitVec 32)} (h : initialValuesOk m = true) {k : ℕ}
    (hk : k < m.length) : bitOf (m.getD k 0) 0 = 1 := by
  rw [initialValuesOk, List.all_eq_true] at h
  have hentry := h (m[k], k) (List.mk_mem_zipIdx_iff_getElem?.2 (List.getElem?_eq_getElem hk))
  rw [decide_eq_true_eq] at hentry
  rw [List.getD_eq_getElem?_getD, List.getElem?_eq_getElem hk, Option.getD_some, bitOf_eq_one,
    BitVec.getLsbD, Nat.testBit_zero, decide_eq_true_eq]
  exact hentry.1

theorem table_ok : ∀ row ∈ JOE_KUO,
    0 < row.1 ∧ row.1 = row.2.2.length ∧ initialValuesOk row.2.2 = true := by
  decide

theorem new_eq {dim : ℕ} (h : 1 ≤ dim ∧ dim ≤ MAX_SOBOL_DIM) : Sobol.new dim =
    some ⟨vanDerCorput :: (JOE_KUO.take (dim - 1)).map fun row =>
      directionsUpTo row.1 row.2.1 row.2.2 32, none⟩ := by
  have hall : ((JOE_KUO.take (dim - 1)).all fun row => initialValuesOk row.2.2) = true := by
    rw [List.all_eq_true]
    intro row hrow
    exact (table_ok row (List.mem_of_mem_take hrow)).2.2
  rw [Sobol.new, if_pos h]
  dsimp only
  rw [if_pos hall]

theorem new_isSome (dim : ℕ) : (Sobol.new dim).isSome ↔ 1 ≤ dim ∧ dim ≤ MAX_SOBOL_DIM := by
  constructor
  · intro h
    by_contra hnot
    rw [Sobol.new, if_neg hnot] at h
    cases h
  · intro h
    rw [new_eq h]
    rfl

theorem new_directions {dim : ℕ} {s : Sobol} (h : Sobol.new dim = some s) :
    s.directions.length = dim ∧ (∀ d < dim, Unitriangular (s.directions.getD d [])) ∧
      s.directions.getD 0 [] = vanDerCorput ∧
      (2 ≤ dim → s.directions.getD 1 [] = directionsUpTo 1 0 [1] 32) := by
  have hdim : 1 ≤ dim ∧ dim ≤ MAX_SOBOL_DIM := (new_isSome dim).1 (by rw [h]; rfl)
  rw [new_eq hdim, Option.some.injEq] at h
  subst h
  have hlength : (JOE_KUO.take (dim - 1)).length = dim - 1 := by
    rw [List.length_take, Nat.min_eq_left]
    exact Nat.sub_le_of_le_add hdim.2
  refine ⟨?_, fun d hd => ?_, rfl, fun htwo => ?_⟩
  · rw [List.length_cons, List.length_map, hlength]
    omega
  · cases d with
    | zero => exact unitriangular_vanDerCorput
    | succ d =>
      have hrow : d < (JOE_KUO.take (dim - 1)).length := by omega
      rw [List.getD_cons_succ, List.getD_eq_getElem?_getD, List.getElem?_map,
        List.getElem?_eq_getElem hrow]
      obtain ⟨hs, hdegree, hok⟩ := table_ok _ (List.mem_of_mem_take (List.getElem_mem hrow))
      apply unitriangular_directions hs
      intro k hk
      exact odd_of_initialValuesOk hok (hdegree ▸ hk)
  · obtain ⟨dim, rfl⟩ := Nat.exists_eq_add_of_le htwo
    rw [show 2 + dim - 1 = dim + 1 by omega]
    rfl

theorem coordinate_leading (s : Sobol) (scramble : Option Draw) (n n' : BitVec 32) (d : ℕ) {j : ℕ}
    (hj : j ≤ 32) :
    coordinate s scramble n d >>> (32 - j) = coordinate s scramble n' d >>> (32 - j) ↔
      combine (s.directions.getD d []) (grayCode n) >>> (32 - j) =
        combine (s.directions.getD d []) (grayCode n') >>> (32 - j) := by
  cases scramble with
  | none => rfl
  | some draw => exact owenScramble_leading draw _ _ _ hj

theorem getD_pointWithScramble (s : Sobol) (scramble : Option Draw) (n : BitVec 32) {d : ℕ}
    (hd : d < s.directions.length) : (pointWithScramble s scramble n).getD d 0 =
      (coordinate s scramble n d).toNat / 4294967296 := by
  rw [pointWithScramble, List.getD_eq_getElem?_getD, List.getElem?_map, List.getElem?_range hd]
  rfl

/-- The dyadic interval of length `2 ^ -j` with a number. -/
def InInterval (j i : ℕ) (x : ℚ) : Prop := (i : ℚ) / 2 ^ j ≤ x ∧ x < (i + 1) / 2 ^ j

/-- One point of every block is in an interval of a coordinate, and in a box of the first two. -/
theorem stratified_pointWithScramble {dim : ℕ} {s : Sobol} (hs : Sobol.new dim = some s)
    (scramble : Option Draw) {m : ℕ} (hm : m ≤ 32) {block : ℕ} (hblock : block < 2 ^ (32 - m)) :
    (∀ d < dim, ∀ i < 2 ^ m, ∃! n : BitVec 32, n.toNat / 2 ^ m = block ∧
      InInterval m i ((pointWithScramble s scramble n).getD d 0)) ∧
    (2 ≤ dim → ∀ a b, a + b = m → ∀ i < 2 ^ a, ∀ j < 2 ^ b,
      ∃! n : BitVec 32, n.toNat / 2 ^ m = block ∧
        InInterval a i ((pointWithScramble s scramble n).getD 0 0) ∧
        InInterval b j ((pointWithScramble s scramble n).getD 1 0)) := by
  obtain ⟨hlength, hunitriangular, hfirst, hsecond⟩ := new_directions hs
  have hleading : ∀ {d j}, j ≤ 32 → ∀ {n n' : BitVec 32},
      (coordinate s scramble n d).toNat / 2 ^ (32 - j) =
        (coordinate s scramble n' d).toNat / 2 ^ (32 - j) →
      combine (s.directions.getD d []) (grayCode n) >>> (32 - j) =
        combine (s.directions.getD d []) (grayCode n') >>> (32 - j) := by
    intro d j hj n n' h
    exact (coordinate_leading s scramble n n' d hj).1 (ushiftRight_eq_iff.2 h)
  refine ⟨fun d hd i hi => ?_, fun htwo a b hab i hi j hj => ?_⟩
  · simp only [InInterval, getD_pointWithScramble s scramble _ (hlength.symm ▸ hd),
      mem_interval_iff hm]
    have hunique := existsUnique_of_separated hm hblock
      (fun n => leadingPart (coordinate s scramble n d) hm) (Fintype.card_fin _)
      (fun n n' hn hn' hcell => separated (hunitriangular d hd) hm (hn.trans hn'.symm)
        (hleading hm (Fin.val_eq_of_eq hcell))) ⟨i, hi⟩
    simpa only [Fin.ext_iff, leadingPart] using hunique
  · subst hab
    have ha : a ≤ 32 := by omega
    have hb : b ≤ 32 := by omega
    simp only [InInterval, getD_pointWithScramble s scramble _ (show 0 < s.directions.length by omega),
      getD_pointWithScramble s scramble _ (show 1 < s.directions.length by omega),
      mem_interval_iff ha, mem_interval_iff hb]
    have hunique := existsUnique_of_separated hm hblock
      (fun n => (leadingPart (coordinate s scramble n 0) ha,
        leadingPart (coordinate s scramble n 1) hb))
      (by rw [Fintype.card_prod, Fintype.card_fin, Fintype.card_fin, pow_add])
      (fun n n' hn hn' hcell => by
        rw [Prod.mk.injEq] at hcell
        have hzero := hleading ha (Fin.val_eq_of_eq hcell.1)
        have hone := hleading hb (Fin.val_eq_of_eq hcell.2)
        rw [hfirst] at hzero
        rw [hsecond htwo] at hone
        exact separated_pair hm (hn.trans hn'.symm) hzero hone) (⟨i, hi⟩, ⟨j, hj⟩)
    simpa only [Prod.mk.injEq, Fin.ext_iff, leadingPart] using hunique

/-- The points of a generator that scrambles with the words of a seed. -/
theorem stratified_scrambled {dim : ℕ} {seed : BitVec 64} {s : Sobol}
    (hs : Sobol.scrambled dim seed = some s) {m : ℕ} (hm : m ≤ 32) {block : ℕ}
    (hblock : block < 2 ^ (32 - m)) :
    (∀ d < dim, ∀ i < 2 ^ m, ∃! n : BitVec 32, n.toNat / 2 ^ m = block ∧
      InInterval m i ((point s n).getD d 0)) ∧
    (2 ≤ dim → ∀ a b, a + b = m → ∀ i < 2 ^ a, ∀ j < 2 ^ b,
      ∃! n : BitVec 32, n.toNat / 2 ^ m = block ∧
        InInterval a i ((point s n).getD 0 0) ∧ InInterval b j ((point s n).getD 1 0)) := by
  obtain ⟨s', hs', rfl⟩ := Option.map_eq_some_iff.mp hs
  exact stratified_pointWithScramble hs' (some (philoxDraw seed)) hm hblock

/-- Every dyadic interval and box of an admitted generator gets one point of every block, whatever
the scramble; the scramble itself is a permutation that respects leading digits. -/
theorem sobol_stratified (draw : Draw) :
    (∀ dim, (Sobol.new dim).isSome ↔ 1 ≤ dim ∧ dim ≤ MAX_SOBOL_DIM) ∧
    (∀ dim s, Sobol.new dim = some s → ∀ scramble : Option Draw, ∀ m ≤ 32, ∀ block < 2 ^ (32 - m),
      (∀ d < dim, ∀ i < 2 ^ m, ∃! n : BitVec 32, n.toNat / 2 ^ m = block ∧
        InInterval m i ((pointWithScramble s scramble n).getD d 0)) ∧
      (2 ≤ dim → ∀ a b, a + b = m → ∀ i < 2 ^ a, ∀ j < 2 ^ b,
        ∃! n : BitVec 32, n.toNat / 2 ^ m = block ∧
          InInterval a i ((pointWithScramble s scramble n).getD 0 0) ∧
          InInterval b j ((pointWithScramble s scramble n).getD 1 0))) ∧
    ∀ dim, Function.Bijective (fun x => owenScramble draw x dim) ∧
      ∀ x y : BitVec 32, ∀ j ≤ 32, (x >>> (32 - j) = y >>> (32 - j) ↔
        owenScramble draw x dim >>> (32 - j) = owenScramble draw y dim >>> (32 - j)) := by
  refine ⟨new_isSome, fun dim s hs scramble m hm block hblock => ?_, fun dim => ?_⟩
  · exact stratified_pointWithScramble hs scramble hm hblock
  · exact ⟨owenScramble_bijective draw dim,
      fun x y j hj => (owenScramble_leading draw dim x y hj).symm⟩

end Generator

end FrankenSim.Qmc
