import Qtx.LevelReads

/-!
# What the I-quant encoders read

The searches compare a target with the points of a grid as far as the grid goes, and a plan
of 32 words depends on these words. So the packed bytes depend on the words of the
super-block and on the points of the grid.
-/
namespace Qtx.GridReads

open Qtx.ByteStreams Qtx.FloatMachine Qtx.FpeGuard Qtx.PackedDigits Qtx.QuantizerHelpers Qtx.StreamReads
  Qtx.IQuants Qtx.LevelReads

variable {M : Machine} {n : ℕ}

/-! Searches. -/

section Searches

variable {target target' point point' : ℕ → BitVec 32}

theorem gridError_congr (ht : ∀ j < n, target j = target' j) (hp : ∀ j < n, point j = point' j) :
    gridError M target point n = gridError M target' point' n :=
  loop_congr _ fun j hj err => by rw [ht j hj, hp j hj]

theorem bestPoint_congr {error error' : ℕ → BitVec 32} (h : ∀ i < n, error i = error' i) :
    bestPoint M error n = bestPoint M error' n :=
  congrArg Prod.fst (loop_congr _ fun i hi acc => by rw [h i hi])

theorem bestGridIndexU64_congr {grid grid' : ℕ → BitVec 64} (hg : ∀ i < n, grid i = grid' i)
    (ht : ∀ j < 8, target j = target' j) : bestGridIndexU64 M grid n target = bestGridIndexU64 M grid' n target' :=
  bestPoint_congr fun i hi => gridError_congr ht fun j _ => by rw [hg i hi]

theorem bestGridIndexU32_congr {grid grid' : ℕ → BitVec 32} (hg : ∀ i < n, grid i = grid' i)
    (ht : ∀ j < 4, target j = target' j) : bestGridIndexU32 M grid n target = bestGridIndexU32 M grid' n target' :=
  bestPoint_congr fun i hi => gridError_congr ht fun j _ => by rw [hg i hi]

theorem bestGridIQ1S_congr {grid grid' : ℕ → BitVec 64} (hg : ∀ i < 2048, grid i = grid' i)
    (ht : ∀ j < 8, target j = target' j) (delta : BitVec 32) :
    bestGridIQ1S M grid target delta = bestGridIQ1S M grid' target' delta :=
  bestPoint_congr fun i hi => gridError_congr ht fun j _ => by rw [hg i hi]

theorem bestIndexIQ4_congr {C C' : Codebooks} (hC : ∀ i < 16, C.kIQ4Codebook i = C'.kIQ4Codebook i)
    (x : BitVec 32) :
    bestIndexIQ4 M C x = bestIndexIQ4 M C' x := by
  rw [bestIndexIQ4, bestIndexIQ4, hC 0 (by decide), hC 15 (by decide)]
  refine if_congr Iff.rfl rfl (if_congr Iff.rfl rfl (congrArg Prod.fst (loop_congr _ fun k hk acc => ?_)))
  dsimp only
  rw [hC (k + 1) (by omega)]

end Searches

/-! Groups of eight words. -/

structure SameGroup (g g' : SignedGroup) : Prop where
  xval : ∀ j < 8, g.xval j = g'.xval j
  signs : g.signs = g'.signs

section Groups

variable {x y : ℕ → BitVec 32}

theorem splitSigns_same (h : ∀ j < 8, x j = y j) : SameGroup (splitSigns M x) (splitSigns M y) where
  xval j hj := by simp only [splitSigns, h j hj]
  signs := by
    simp only [splitSigns]
    exact bitMask_congr fun j hj => by rw [h j hj]

theorem flips_congr (h : ∀ j < 8, x j = y j) : flips M x = flips M y :=
  loop_congr _ fun j hj n => by rw [h j hj]

theorem smallest_congr (h : ∀ j < 8, x j = y j) : smallest M x = smallest M y := by
  rw [smallest, smallest, h 0 (by decide)]
  exact congrArg Prod.fst (loop_congr _ fun k hk acc => by rw [h (k + 1) (by omega)])

theorem evenSigns_same (h : ∀ j < 8, x j = y j) : SameGroup (evenSigns M x) (evenSigns M y) := by
  have hsplit := splitSigns_same (M := M) h
  simp only [evenSigns, flips_congr h, smallest_congr hsplit.xval]
  split_ifs
  · constructor
    · intro j hj
      dsimp only
      rw [hsplit.xval j hj]
    · dsimp only
      rw [hsplit.signs]
  · exact hsplit

end Groups

/-! Plans of 32 words. -/

/-- The same plan, for indices of `size` words. -/
structure SamePlan (size : ℕ) (x y : Ib32Plan) : Prop where
  db : x.db = y.db
  gridIdx : ∀ g, size * g + size ≤ 32 → x.gridIdx g = y.gridIdx g
  signs : ∀ k < 4, x.signs k = y.signs k

section Plans

variable {group : (ℕ → BitVec 32) → SignedGroup} {divisor size : ℕ} {search search' : (ℕ → BitVec 32) → ℕ}
  {blk blk' : ℕ → BitVec 32}

theorem ib32Plan_same (hgroup : ∀ x y : ℕ → BitVec 32, (∀ j < 8, x j = y j) → SameGroup (group x) (group y))
    (hsearch : ∀ t t' : ℕ → BitVec 32, (∀ j < size, t j = t' j) → search t = search' t')
    (h : ∀ j < 32, blk j = blk' j) :
    SamePlan size (ib32Plan M group divisor size search blk) (ib32Plan M group divisor size search' blk') := by
  have hgroups : ∀ k < 4, SameGroup (group fun j => blk (8 * k + j)) (group fun j => blk' (8 * k + j)) :=
    fun k hk => hgroup _ _ fun j hj => h _ (by omega)
  have hvalues : ∀ j < 32, groupValues (fun k => group fun j => blk (8 * k + j)) j =
      groupValues (fun k => group fun j => blk' (8 * k + j)) j :=
    fun j hj => (hgroups (j / 8) (by omega)).xval _ (Nat.mod_lt _ (by decide))
  have hscale : groupScale M divisor (groupValues fun k => group fun j => blk (8 * k + j)) =
      groupScale M divisor (groupValues fun k => group fun j => blk' (8 * k + j)) := by
    rw [groupScale, groupScale, positiveMax_congr hvalues]
  constructor
  · simp only [ib32Plan, hscale]
  · intro g hg
    simp only [ib32Plan, hscale]
    exact hsearch _ _ fun j hj => by rw [hvalues _ (by omega)]
  · exact fun k hk => (hgroups k hk).signs

theorem plans_same (hgroup : ∀ x y : ℕ → BitVec 32, (∀ j < 8, x j = y j) → SameGroup (group x) (group y))
    (hsearch : ∀ t t' : ℕ → BitVec 32, (∀ j < size, t j = t' j) → search t = search' t')
    (h : ∀ i < 256, blk i = blk' i) {ib : ℕ} (hib : ib < 8) :
    SamePlan size (plans M group divisor size search blk ib) (plans M group divisor size search' blk' ib) :=
  ib32Plan_same hgroup hsearch fun j hj => h _ (by omega)

theorem maxPlan_congr {plan plan' : ℕ → Ib32Plan} (h : ∀ ib < 8, SamePlan size (plan ib) (plan' ib)) :
    maxPlan M plan = maxPlan M plan' :=
  positiveMax_congr fun ib hib => (h ib hib).db

end Plans

/-! Packing. -/

section Packing

variable {d : BitVec 16} {idx idx' signs signs' : ℕ → ℕ → ℕ} {scale scale' : ℕ → ℕ} {x y : ℕ → ℕ} {k : ℕ}

theorem packHalvesIQ4_congr {m : ℕ} (h : ∀ i < 32 * m, x i = y i) (hk : k < 16 * m) :
    packHalvesIQ4 x k = packHalvesIQ4 y k := by
  simp only [packHalvesIQ4]
  rw [h _ (by omega), h (_ + 16) (by omega)]

theorem packSignsScale_congr {s : ℕ} (h : ∀ l < 4, x l = y l) : packSignsScale x s = packSignsScale y s := by
  rw [packSignsScale, packSignsScale, packDigits_congr h]

theorem packIQ4_XS_congr (hs : ∀ ib < 8, scale ib = scale' ib) (hi : ∀ i < 256, x i = y i) :
    packIQ4_XS d scale x = packIQ4_XS d scale' y := by
  have hhigh : packScalesHigh scale = packScalesHigh scale' :=
    congrArg (BitVec.ofNat 16) (packDigits_congr fun ib hib => by rw [hs ib hib])
  rw [packIQ4_XS, packIQ4_XS, hhigh]
  refine join_congr (fun _ _ => rfl) (join_congr (fun _ _ => rfl) (join_congr (fun k hk => ?_)
    (join_congr (fun k hk => packHalvesIQ4_congr (m := 8) hi hk) rfl)))
  rw [packScalesLow, packScalesLow, hs (2 * k) (by omega), hs (2 * k + 1) (by omega)]

theorem packIQ2_XXS_congr (hi : ∀ ib < 8, ∀ l < 4, idx ib l = idx' ib l)
    (hg : ∀ ib < 8, ∀ l < 4, signs ib l = signs' ib l) (hs : ∀ ib < 8, scale ib = scale' ib) :
    packIQ2_XXS d idx signs scale = packIQ2_XXS d idx' signs' scale' := by
  refine join_congr (fun _ _ => rfl) (join_congr (fun a ha => ?_) rfl)
  have hib : a / 8 < 8 := by omega
  dsimp only
  rw [packDigits_congr (hi _ hib), packSignsScale_congr (hg _ hib), hs _ hib]

theorem packIQ2_XS_congr (hi : ∀ ib < 8, ∀ l < 4, idx ib l = idx' ib l)
    (hg : ∀ ib < 8, ∀ l < 4, signs ib l = signs' ib l) (hs : ∀ ib < 8, scale ib = scale' ib) :
    packIQ2_XS d idx signs scale = packIQ2_XS d idx' signs' scale' := by
  refine join_congr (fun _ _ => rfl) (join_congr (fun a ha => ?_) (join_congr (fun ib hib => ?_) rfl))
  · rw [hi _ (by omega) _ (by omega), hg _ (by omega) _ (by omega)]
  · rw [hs ib hib]

theorem packIQ2_S_congr (hi : ∀ ib < 8, ∀ l < 4, idx ib l = idx' ib l)
    (hg : ∀ ib < 8, ∀ l < 4, signs ib l = signs' ib l) (hs : ∀ ib < 8, scale ib = scale' ib) :
    packIQ2_S d idx signs scale = packIQ2_S d idx' signs' scale' := by
  refine join_congr (fun _ _ => rfl) (join_congr (fun a ha => ?_) (join_congr (fun a ha => ?_)
    (join_congr (fun ib hib => ?_) (join_congr (fun ib hib => ?_) rfl))))
  · rw [hi _ (by omega) _ (by omega)]
  · rw [hg _ (by omega) _ (by omega)]
  · exact congrArg _ (packDigits_congr fun l hl => by rw [hi ib hib l hl])
  · rw [hs ib hib]

theorem packIQ3_XXS_congr (hi : ∀ ib < 8, ∀ g < 8, idx ib g = idx' ib g)
    (hg : ∀ ib < 8, ∀ l < 4, signs ib l = signs' ib l) (hs : ∀ ib < 8, scale ib = scale' ib) :
    packIQ3_XXS d idx signs scale = packIQ3_XXS d idx' signs' scale' := by
  refine join_congr (fun _ _ => rfl) (join_congr (fun a ha => ?_) (join_congr (fun a ha => ?_) rfl))
  · rw [hi _ (by omega) _ (by omega)]
  · have hib : a / 4 < 8 := by omega
    rw [packSignsScale_congr (hg _ hib), hs _ hib]

theorem packIQ3_S_congr (hi : ∀ ib < 8, ∀ g < 8, idx ib g = idx' ib g)
    (hg : ∀ ib < 8, ∀ l < 4, signs ib l = signs' ib l) (hs : ∀ ib < 8, scale ib = scale' ib) :
    packIQ3_S d idx signs scale = packIQ3_S d idx' signs' scale' := by
  refine join_congr (fun _ _ => rfl) (join_congr (fun a ha => ?_) (join_congr (fun ib hib => ?_)
    (join_congr (fun a ha => ?_) (join_congr (fun k hk => ?_) rfl))))
  · rw [hi _ (by omega) _ (by omega)]
  · exact congrArg _ (bitMask_congr fun g hg => by rw [hi ib hib g hg])
  · rw [hg _ (by omega) _ (by omega)]
  · rw [hs (2 * k) (by omega), hs (2 * k + 1) (by omega)]

variable {neg neg' : ℕ → Bool}

theorem packIQ1_S_congr (hi : ∀ ib < 8, ∀ l < 4, idx ib l = idx' ib l) (hs : ∀ ib < 8, scale ib = scale' ib)
    (hn : ∀ ib < 8, neg ib = neg' ib) : packIQ1_S d idx scale neg = packIQ1_S d idx' scale' neg' := by
  refine join_congr (fun _ _ => rfl) (join_congr (fun a ha => ?_) (join_congr (fun a ha => ?_) rfl))
  · rw [hi _ (by omega) _ (by omega)]
  · have hib : a / 2 < 8 := by omega
    have hhigh : packDigits 3 (fun l => (idx (a / 2) l >>> 8) &&& 0x07) 4 =
        packDigits 3 (fun l => (idx' (a / 2) l >>> 8) &&& 0x07) 4 :=
          packDigits_congr fun l hl => by rw [hi _ hib l hl]
    dsimp only
    rw [hhigh, hs _ hib, hn _ hib]

theorem packIQ1_M_congr (hi : ∀ ib < 8, ∀ l < 4, idx ib l = idx' ib l) (hs : ∀ sb < 16, scale sb = scale' sb)
    (hn : ∀ sb < 16, neg sb = neg' sb) : packIQ1_M d idx scale neg = packIQ1_M d idx' scale' neg' := by
  refine join_congr (fun a ha => ?_) (join_congr (fun k hk => ?_) (join_congr (fun a ha => ?_) rfl))
  · rw [hi _ (by omega) _ (by omega)]
  · simp only [packHighIQ1_M]
    rw [hn k hk, hi (k / 2) (by omega) (2 * (k % 2)) (by omega), hi (k / 2) (by omega) (2 * (k % 2) + 1) (by omega)]
  · simp only [packScaleIQ1_M]
    rw [hs (4 * (a / 2)) (by omega), hs (4 * (a / 2) + 1) (by omega), hs (4 * (a / 2) + 2) (by omega),
      hs (4 * (a / 2) + 3) (by omega)]

end Packing

/-! The encoders. -/

section Encoders

variable {C C' : Codebooks} {p q : Bytes}

theorem encodeIQ4_NL_congr (hC : ∀ i < 16, C.kIQ4Codebook i = C'.kIQ4Codebook i) (h : SameBytes 128 p q) :
    encodeIQ4_NL M C p = encodeIQ4_NL M C' q := by
  have hblk := wordAt_same (n := 32) h
  simp only [encodeIQ4_NL, packIQ4_NL, absMax_congr hblk, subBlockSignedAbsMax_congr hblk]
  refine join_congr (fun _ _ => rfl) (join_congr (fun k hk => ?_) rfl)
  exact packHalvesIQ4_congr (m := 1) (fun i hi => by rw [hblk i hi, bestIndexIQ4_congr hC]) hk

theorem encodeIQ4_XS_congr (hC : ∀ i < 16, C.kIQ4Codebook i = C'.kIQ4Codebook i) (h : SameBytes 1024 p q) :
    encodeIQ4_XS M C p = encodeIQ4_XS M C' q := by
  have hblk := wordAt_same (n := 256) h
  have hmax : ∀ ib < 8, subBlockSignedAbsMax M (fun j => wordAt p (32 * ib + j)) 32 =
      subBlockSignedAbsMax M (fun j => wordAt q (32 * ib + j)) 32 :=
    fun ib hib => subBlockSignedAbsMax_congr fun j hj => hblk _ (by omega)
  have hextreme :
    extremeScale M (fun ib => M.div (subBlockSignedAbsMax M (fun j => wordAt p (32 * ib + j)) 32) minIQ4) 8 =
      extremeScale M (fun ib => M.div (subBlockSignedAbsMax M (fun j => wordAt q (32 * ib + j)) 32) minIQ4) 8 :=
    extremeScale_congr fun ib hib => by rw [hmax ib hib]
  simp only [encodeIQ4_XS, hextreme]
  refine if_congr Iff.rfl rfl (packIQ4_XS_congr (fun ib hib => ?_) fun i hi => ?_)
  · rw [hmax ib hib]
  · rw [hmax (i / 32) (by omega), hblk i hi, bestIndexIQ4_congr hC]

/-- The encoders that look for groups of eight values. -/
theorem plansU64_same {group : (ℕ → BitVec 32) → SignedGroup} {grid grid' : ℕ → BitVec 64} {size : ℕ}
    (hgroup : ∀ x y : ℕ → BitVec 32, (∀ j < 8, x j = y j) → SameGroup (group x) (group y))
    (hgrid : ∀ i < size, grid i = grid' i) (h : SameBytes 1024 p q) (divisor : ℕ) :
    ∀ ib < 8, SamePlan 8 (plans M group divisor 8 (bestGridIndexU64 M grid size) (wordAt p) ib)
      (plans M group divisor 8 (bestGridIndexU64 M grid' size) (wordAt q) ib) :=
  fun _ hib => plans_same hgroup (fun _ _ => bestGridIndexU64_congr hgrid) (wordAt_same (n := 256) h) hib

theorem encodeIQ2_XXS_congr (hC : ∀ i < 256, C.iq2xxsGrid i = C'.iq2xxsGrid i) (h : SameBytes 1024 p q) :
    encodeIQ2_XXS M C p = encodeIQ2_XXS M C' q := by
  have hplan := plansU64_same (M := M) (fun _ _ => evenSigns_same (M := M)) hC h 25
  simp only [encodeIQ2_XXS, maxPlan_congr hplan]
  refine if_congr Iff.rfl rfl (packIQ2_XXS_congr (fun ib hib l hl => ?_) (fun ib hib l hl => ?_) fun ib hib => ?_)
  · exact (hplan ib hib).gridIdx l (by omega)
  · rw [(hplan ib hib).signs l hl]
  · rw [(hplan ib hib).db]

theorem encodeIQ2_XS_congr (hC : ∀ i < 512, C.iq2xsGrid i = C'.iq2xsGrid i) (h : SameBytes 1024 p q) :
    encodeIQ2_XS M C p = encodeIQ2_XS M C' q := by
  have hplan := plansU64_same (M := M) (fun _ _ => evenSigns_same (M := M)) hC h 25
  simp only [encodeIQ2_XS, maxPlan_congr hplan]
  refine if_congr Iff.rfl rfl (packIQ2_XS_congr (fun ib hib l hl => ?_) (fun ib hib l hl => ?_) fun ib hib => ?_)
  · exact (hplan ib hib).gridIdx l (by omega)
  · rw [(hplan ib hib).signs l hl]
  · rw [(hplan ib hib).db]

theorem encodeIQ2_S_congr (hC : ∀ i < 1024, C.iq2sGrid i = C'.iq2sGrid i) (h : SameBytes 1024 p q) :
    encodeIQ2_S M C p = encodeIQ2_S M C' q := by
  have hplan := plansU64_same (M := M) (fun _ _ => splitSigns_same (M := M)) hC h 25
  simp only [encodeIQ2_S, maxPlan_congr hplan]
  refine if_congr Iff.rfl rfl (packIQ2_S_congr (fun ib hib l hl => ?_) (fun ib hib l hl => ?_) fun ib hib => ?_)
  · exact (hplan ib hib).gridIdx l (by omega)
  · exact (hplan ib hib).signs l hl
  · rw [(hplan ib hib).db]

theorem encodeIQ3_XXS_congr (hC : ∀ i < 256, C.iq3xxsGrid i = C'.iq3xxsGrid i) (h : SameBytes 1024 p q) :
    encodeIQ3_XXS M C p = encodeIQ3_XXS M C' q := by
  have hplan : ∀ ib < 8, SamePlan 4 (plans M (evenSigns M) 14 4 (bestGridIndexU32 M C.iq3xxsGrid 256) (wordAt p) ib)
      (plans M (evenSigns M) 14 4 (bestGridIndexU32 M C'.iq3xxsGrid 256) (wordAt q) ib) :=
    fun _ hib => plans_same (fun _ _ => evenSigns_same) (fun _ _ => bestGridIndexU32_congr hC)
      (wordAt_same (n := 256) h) hib
  simp only [encodeIQ3_XXS, maxPlan_congr hplan]
  refine if_congr Iff.rfl rfl (packIQ3_XXS_congr (fun ib hib g hg => ?_) (fun ib hib l hl => ?_) fun ib hib => ?_)
  · exact (hplan ib hib).gridIdx g (by omega)
  · rw [(hplan ib hib).signs l hl]
  · rw [(hplan ib hib).db]

theorem encodeIQ3_S_congr (hC : ∀ i < 512, C.iq3sGrid i = C'.iq3sGrid i) (h : SameBytes 1024 p q) :
    encodeIQ3_S M C p = encodeIQ3_S M C' q := by
  have hblk := wordAt_same (n := 256) h
  have hgroup : ∀ ib < 8, ∀ k < 4, SameGroup (splitSigns M fun j => wordAt p (32 * ib + 8 * k + j))
      (splitSigns M fun j => wordAt q (32 * ib + 8 * k + j)) :=
    fun ib hib k hk => splitSigns_same fun j hj => hblk _ (by omega)
  have hxval : ∀ ib < 8, ∀ j < 32, groupValues (fun k => splitSigns M fun j => wordAt p (32 * ib + 8 * k + j)) j =
      groupValues (fun k => splitSigns M fun j => wordAt q (32 * ib + 8 * k + j)) j :=
    fun ib hib j hj => (hgroup ib hib (j / 8) (by omega)).xval _ (Nat.mod_lt _ (by decide))
  have hmax : ∀ ib < 8,
      positiveMax M
        (fun j => fabs (groupValues (fun k => splitSigns M fun j => wordAt p (32 * ib + 8 * k + j)) j)) 32 =
      positiveMax M
        (fun j => fabs (groupValues (fun k => splitSigns M fun j => wordAt q (32 * ib + 8 * k + j)) j)) 32 :=
    fun ib hib => positiveMax_congr fun j hj => by rw [hxval ib hib j hj]
  simp only [encodeIQ3_S, absMax_congr hblk]
  refine if_congr Iff.rfl rfl (packIQ3_S_congr (fun ib hib g hg => ?_) (fun ib hib l hl => ?_) fun ib hib => ?_)
  · rw [hmax ib hib]
    exact bestGridIndexU32_congr hC fun j hj => by rw [hxval ib hib _ (by omega)]
  · exact (hgroup ib hib l hl).signs
  · rw [hmax ib hib]

theorem sumNegative_congr {x y : ℕ → BitVec 32} (h : ∀ j < n, x j = y j) :
    sumNegative M x n = sumNegative M y n := by
  rw [sumNegative, sumNegative, loop_congr _ fun j hj sum => by rw [h j hj]]

theorem encodeIQ1_S_congr (hC : ∀ i < 2048, C.iq1sGrid i = C'.iq1sGrid i) (h : SameBytes 1024 p q) :
    encodeIQ1_S M C p = encodeIQ1_S M C' q := by
  have hblk := wordAt_same (n := 256) h
  have hsum : ∀ ib < 8, sumNegative M (fun j => wordAt p (32 * ib + j)) 32 =
      sumNegative M (fun j => wordAt q (32 * ib + j)) 32 :=
    fun ib hib => sumNegative_congr fun j hj => hblk _ (by omega)
  have hmax : ∀ ib < 8, absMax M (fun j => wordAt p (32 * ib + j)) 32 =
    absMax M (fun j => wordAt q (32 * ib + j)) 32 :=
    fun ib hib => absMax_congr fun j hj => hblk _ (by omega)
  simp only [encodeIQ1_S, absMax_congr hblk]
  refine if_congr Iff.rfl rfl (packIQ1_S_congr (fun ib hib l hl => ?_) (fun ib hib => ?_) hsum)
  · rw [hsum ib hib, hmax ib hib]
    exact bestGridIQ1S_congr hC (fun j hj => by rw [hblk _ (by omega)]) _
  · rw [hmax ib hib]

theorem encodeIQ1_M_congr (hC : ∀ i < 2048, C.iq1sGrid i = C'.iq1sGrid i) (h : SameBytes 1024 p q) :
    encodeIQ1_M M C p = encodeIQ1_M M C' q := by
  have hblk := wordAt_same (n := 256) h
  have hsum : ∀ sb < 16, sumNegative M (fun j => wordAt p (16 * sb + j)) 16 =
      sumNegative M (fun j => wordAt q (16 * sb + j)) 16 :=
    fun sb hsb => sumNegative_congr fun j hj => hblk _ (by omega)
  have hmax : ∀ sb < 16, absMax M (fun j => wordAt p (16 * sb + j)) 16 =
    absMax M (fun j => wordAt q (16 * sb + j)) 16 :=
    fun sb hsb => absMax_congr fun j hj => hblk _ (by omega)
  simp only [encodeIQ1_M, absMax_congr hblk]
  refine if_congr Iff.rfl rfl (packIQ1_M_congr (fun ib hib l hl => ?_) (fun sb hsb => ?_) hsum)
  · rw [hsum (2 * ib + l / 2) (by omega), hmax (2 * ib + l / 2) (by omega)]
    exact bestGridIQ1S_congr hC (fun j hj => by rw [hblk _ (by omega)]) _
  · rw [hmax sb hsb]

end Encoders

end Qtx.GridReads
