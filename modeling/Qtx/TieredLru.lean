import Qtx.TieredClock

/-!
# The victim is the least recently used tenant

The stamp of a record in use is the position of its last use among the successful
creates and acquires of the run. So the smallest stamp belongs to the tenant whose last
use lies earliest.
-/
namespace Qtx.TieredArenaBridge

variable {c : TieredConfig} {b b' : TieredArenaBridge c} {skipId : BitVec 64} {i : ℕ}

/-- The records of the successful creates and acquires of a run, in their order. -/
def uses (b : TieredArenaBridge c) : List (Caller × Op) → List ℕ
  | [] => []
  | l :: ls => (b.used l.1 l.2).toList ++ uses (b.call l.1 l.2) ls

/-- The last use of a record is the one at this position. -/
def LastUse (l : List ℕ) (i n : ℕ) : Prop := l[n]? = some i ∧ ∀ m, n < m → l[m]? ≠ some i

/-- The tenants that an eviction may choose from. -/
def Evictable (b : TieredArenaBridge c) (skipId : BitVec 64) (i : ℕ) : Prop :=
  (b.tenants i).inUse = true ∧ (b.tenants i).kind = .kFullSlot ∧ (b.tenants i).state = .kInHot ∧
    (b.tenants i).pinCount = 0#32 ∧ (b.tenants i).sealed = false ∧ (b.tenants i).tenantId ≠ skipId

/-- The evictable tenant whose last use lies before those of all others. -/
def LeastRecent (b : TieredArenaBridge c) (l : List ℕ) (skipId : BitVec 64) (v : ℕ) : Prop :=
  b.Evictable skipId v ∧ ∃ m, LastUse l v m ∧
    ∀ k, b.Evictable skipId k → k ≠ v → ∃ n, LastUse l k n ∧ m < n

section Histories

variable {l : List ℕ} {k m n : ℕ}

theorem LastUse.lt (h : LastUse l i n) : n < l.length := (List.getElem?_eq_some_iff.mp h.1).1

theorem LastUse.unique (h : LastUse l i m) (h' : LastUse l i n) : m = n := by
  rcases Nat.lt_trichotomy m n with hlt | heq | hlt
  · exact absurd h'.1 (h.2 n hlt)
  · exact heq
  · exact absurd h.1 (h'.2 m hlt)

/-- Different records are used at different positions. -/
theorem LastUse.ne (h : LastUse l i m) (h' : LastUse l k n) (hne : i ≠ k) : m ≠ n := by
  rintro rfl
  exact hne (Option.some.inj (h.1.symm.trans h'.1))

theorem lastUse_snoc (l : List ℕ) (i : ℕ) : LastUse (l ++ [i]) i l.length := by
  refine ⟨by simp, fun m hm => ?_⟩
  rw [List.getElem?_eq_none (by simpa using hm)]
  simp

theorem LastUse.snoc (h : LastUse l i n) (hne : k ≠ i) : LastUse (l ++ [k]) i n := by
  refine ⟨?_, fun m hm => ?_⟩
  · rw [List.getElem?_append_left h.lt]
    exact h.1
  · rcases Nat.lt_trichotomy m l.length with hlt | heq | hlt
    · rw [List.getElem?_append_left hlt]
      exact h.2 m hm
    · subst heq
      simpa using hne
    · rw [List.getElem?_eq_none (by simpa using hlt)]
      simp

end Histories

section Chronicles

variable {l : List ℕ}

/-- The clock counts the uses so far, and every stamp is the position of a last use. -/
structure Chronicle (b : TieredArenaBridge c) (l : List ℕ) : Prop where
  clock : b.monotonicClock = BitVec.ofNat 64 l.length
  stamps : ∀ i, (b.tenants i).inUse = true → LastUse l i (b.tenants i).accessTime.toNat

theorem chronicle_new (c : TieredConfig) : Chronicle (new c) [] := ⟨rfl, fun _ hu => nomatch hu⟩

/-- One operation makes at most one use. -/
theorem Chronicle.step (h : Chronicle b l) {use : Option ℕ} (timed : Timed b b' skipId use)
    (unwrapped : l.length < 2 ^ 64) : Chronicle b' (l ++ use.toList) := by
  have hticket : b.monotonicClock.toNat = l.length := by
    rw [h.clock, BitVec.toNat_ofNat, Nat.mod_eq_of_lt unwrapped]
  cases use with
  | none =>
    rw [Option.toList_none, List.append_nil]
    refine ⟨timed.clock.trans h.clock, fun i hu => ?_⟩
    obtain ⟨hu', hstamp⟩ := timed.others i (fun hm => nomatch hm) hu
    rw [hstamp]
    exact h.stamps i hu'
  | some k =>
    rw [Option.toList_some]
    refine ⟨?_, fun i hu => ?_⟩
    · rw [timed.clock, h.clock, List.length_append, List.length_singleton]
      exact (BitVec.ofNat_add l.length 1).symm
    · by_cases hk : k = i
      · subst hk
        have hlt : (b.tenants k).inUse = true → (b.tenants k).accessTime < b.monotonicClock := by
          intro hold
          rw [BitVec.lt_def, hticket]
          exact (h.stamps k hold).lt
        rw [(timed.used k rfl).2 hlt, hticket]
        exact lastUse_snoc l k
      · obtain ⟨hu', hstamp⟩ := timed.others i (fun hm => hk (Option.some.inj hm)) hu
        rw [hstamp]
        exact (h.stamps i hu').snoc hk

theorem Chronicle.calls (h : Chronicle b l) (hi : Invariant b) (ls : List (Caller × Op))
    (unwrapped : (l ++ uses b ls).length < 2 ^ 64) : Chronicle (b.calls ls) (l ++ uses b ls) := by
  induction ls generalizing b l with
  | nil =>
    rw [uses, List.append_nil]
    exact h
  | cons x ls ih =>
    rw [uses, ← List.append_assoc] at unwrapped ⊢
    have hlt : l.length < 2 ^ 64 := by
      rw [List.append_assoc, List.length_append] at unwrapped
      omega
    exact ih (h.step (call_timed hi x.1 x.2) hlt) (call_invariant hi x.1 x.2) unwrapped

/-- No call is used twice. -/
theorem length_uses_le (b : TieredArenaBridge c) (ls : List (Caller × Op)) : (uses b ls).length ≤ ls.length := by
  induction ls generalizing b with
  | nil => exact le_rfl
  | cons x ls ih =>
    have hone : (b.used x.1 x.2).toList.length ≤ 1 := by
      cases b.used x.1 x.2 <;> simp
    have hrest := ih (b.call x.1 x.2)
    rw [uses, List.length_append, List.length_cons]
    omega

theorem Chronicle.distinct (h : Chronicle b l) {i k : ℕ} (hi : (b.tenants i).inUse = true)
    (hk : (b.tenants k).inUse = true) (hne : i ≠ k) : (b.tenants i).accessTime ≠ (b.tenants k).accessTime :=
  fun heq => (h.stamps i hi).ne (h.stamps k hk) hne (congrArg BitVec.toNat heq)

end Chronicles

section Victims

theorem evictable_iff : b.Evictable skipId i ↔ b.eligible skipId i = true := by
  rw [eligible_iff, Evictable]
  tauto

/-- One step of the sweep keeps the smaller of two stamps. -/
theorem olderVictim_le (skipId : BitVec 64) (victim : Option ℕ) (i : ℕ) :
    (∀ w ∈ victim, ∃ u, b.olderVictim skipId victim i = some u ∧
      (b.tenants u).accessTime ≤ (b.tenants w).accessTime) ∧
    (b.eligible skipId i = true → ∃ u, b.olderVictim skipId victim i = some u ∧
      (b.tenants u).accessTime ≤ (b.tenants i).accessTime) := by
  unfold olderVictim
  cases he : b.eligible skipId i with
  | false => exact ⟨fun w hw => ⟨w, hw, BitVec.le_refl _⟩, fun hc => nomatch hc⟩
  | true =>
    rw [if_pos rfl]
    cases victim with
    | none => exact ⟨fun w hw => (nomatch hw), fun _ => ⟨i, rfl, BitVec.le_refl _⟩⟩
    | some v =>
      dsimp only
      split_ifs with hlt
      · refine ⟨fun w hw => ⟨i, rfl, ?_⟩, fun _ => ⟨i, rfl, BitVec.le_refl _⟩⟩
        obtain rfl := Option.some.inj hw
        exact BitVec.le_of_lt hlt
      · refine ⟨fun w hw => ⟨v, rfl, ?_⟩, fun _ => ⟨v, rfl, BitVec.not_lt.mp hlt⟩⟩
        obtain rfl := Option.some.inj hw
        exact BitVec.le_refl _

/-- The sweep keeps the smallest stamp it has met. -/
theorem foldl_olderVictim_le (skipId : BitVec 64) (is : List ℕ) (victim : Option ℕ) {v : ℕ}
    (hv : is.foldl (b.olderVictim skipId) victim = some v) :
    (∀ w ∈ victim, (b.tenants v).accessTime ≤ (b.tenants w).accessTime) ∧
      ∀ i ∈ is, b.eligible skipId i = true → (b.tenants v).accessTime ≤ (b.tenants i).accessTime := by
  induction is generalizing victim with
  | nil =>
    refine ⟨fun w hw => ?_, fun i hi => (nomatch hi)⟩
    obtain rfl := Option.some.inj (hv.symm.trans hw)
    exact BitVec.le_refl _
  | cons i is ih =>
    obtain ⟨hfirst, hrest⟩ := ih (b.olderVictim skipId victim i) hv
    obtain ⟨hkept, hmet⟩ := olderVictim_le (b := b) skipId victim i
    refine ⟨fun w hw => ?_, fun k hk hel => ?_⟩
    · obtain ⟨u, hu, hle⟩ := hkept w hw
      exact BitVec.le_trans (hfirst u hu) hle
    · rcases List.mem_cons.mp hk with rfl | hk
      · obtain ⟨u, hu, hle⟩ := hmet hel
        exact BitVec.le_trans (hfirst u hu) hle
      · exact hrest k hk hel

theorem findVictim_isSome_iff (h : Invariant b) (skipId : BitVec 64) :
    (∃ v, b.findVictim skipId = some v) ↔ ∃ i, b.Evictable skipId i := by
  constructor
  · rintro ⟨v, hv⟩
    exact ⟨v, evictable_iff.mpr (findVictim_some hv)⟩
  · rintro ⟨i, hi⟩
    cases hv : b.findVictim skipId with
    | none =>
      have hel := evictable_iff.mp hi
      rw [findVictim_none hv (h.tenants_lt i hi.1)] at hel
      cases hel
    | some v => exact ⟨v, rfl⟩

/-- Stamps are positions of last uses, so the oldest stamp is the one of the least recent tenant. -/
theorem Chronicle.findVictim_iff {l : List ℕ} (hc : Chronicle b l) (h : Invariant b) (skipId : BitVec 64) (v : ℕ) :
    b.findVictim skipId = some v ↔ b.LeastRecent l skipId v := by
  have hleast : ∀ w, b.findVictim skipId = some w → b.LeastRecent l skipId w := by
    intro w hw
    have hel := evictable_iff.mpr (findVictim_some hw)
    have hmin := (foldl_olderVictim_le skipId (List.range c.maxTenants) none hw).2
    refine ⟨hel, _, hc.stamps w hel.1, fun k hk hne => ⟨_, hc.stamps k hk.1, ?_⟩⟩
    have hle : (b.tenants w).accessTime.toNat ≤ (b.tenants k).accessTime.toNat :=
      hmin k (List.mem_range.mpr (h.tenants_lt k hk.1)) (evictable_iff.mp hk)
    exact Nat.lt_of_le_of_ne hle ((hc.stamps w hel.1).ne (hc.stamps k hk.1) (Ne.symm hne))
  refine ⟨hleast v, fun hv => ?_⟩
  obtain ⟨w, hw⟩ := (findVictim_isSome_iff h skipId).mpr ⟨v, hv.1⟩
  by_cases hne : w = v
  · rw [hw, hne]
  · -- two least recent tenants would each come before the other
    obtain ⟨hel, m, hm, hbefore⟩ := hv
    obtain ⟨hel', m', hm', hbefore'⟩ := hleast w hw
    obtain ⟨n, hn, hlt⟩ := hbefore w hel' hne
    obtain ⟨n', hn', hlt'⟩ := hbefore' v hel (Ne.symm hne)
    have heq := hm.unique hn'
    have heq' := hm'.unique hn
    omega

theorem evict_moves (h : Invariant b) (caller : Caller)
    (moved : (b.evictOldestToColdLocked caller skipId).1 = true) :
    ∃ v, b.findVictim skipId = some v ∧
      ((b.evictOldestToColdLocked caller skipId).2.tenants v).state = .kInCold ∧
      ∀ k, k ≠ v → (b.evictOldestToColdLocked caller skipId).2.tenants k = b.tenants k := by
  have ho := evict_outcome h caller skipId
  generalize b.evictOldestToColdLocked caller skipId = res at ho moved
  cases ho with
  | noVictim => cases moved
  | noSlot => cases moved
  | refused => cases moved
  | @moved v b₁ victim next =>
    refine ⟨v, victim, ?_, ?_⟩
    · cases next with
      | evict => rw [tenants_setTenant_self]
    · intro k hk
      cases next with
      | evict => exact tenants_setTenant_of_ne hk

/-- In every run whose uses the clock can count, an eviction moves the evictable tenant
that was used least recently, and there is a victim as soon as a tenant is evictable. -/
theorem exact_lru {ls : List (Caller × Op)} {l : List ℕ} (run : (new c).calls ls = b)
    (history : uses (new c) ls = l) (unwrapped : l.length < 2 ^ 64) :
    (∀ i k, (b.tenants i).inUse = true → (b.tenants k).inUse = true → i ≠ k →
      (b.tenants i).accessTime ≠ (b.tenants k).accessTime) ∧
    (∀ skipId, (∃ v, b.findVictim skipId = some v) ↔ ∃ i, b.Evictable skipId i) ∧
    (∀ skipId v, b.findVictim skipId = some v ↔ b.LeastRecent l skipId v) ∧
    (∀ caller skipId, (b.evictOldestToColdLocked caller skipId).1 = true → ∃ v, b.LeastRecent l skipId v ∧
      ((b.evictOldestToColdLocked caller skipId).2.tenants v).state = .kInCold ∧
      ∀ k, k ≠ v → (b.evictOldestToColdLocked caller skipId).2.tenants k = b.tenants k) ∧
    ∀ caller op i, (b.tenants i).state = .kInHot → ((b.call caller op).tenants i).state = .kInCold →
      b.LeastRecent l (op.excluded b) i := by
  subst run history
  have hi : Invariant ((new c).calls ls) := (reachable_invariant (reachable_calls .refl ls)).1
  have hc : Chronicle ((new c).calls ls) (uses (new c) ls) :=
    (chronicle_new c).calls (invariant_new c) ls unwrapped
  refine ⟨fun i k => hc.distinct, findVictim_isSome_iff hi, hc.findVictim_iff hi, ?_, ?_⟩
  · intro caller skipId moved
    obtain ⟨v, hv, hcold, hothers⟩ := evict_moves hi caller moved
    exact ⟨v, (hc.findVictim_iff hi skipId v).mp hv, hcold, hothers⟩
  · intro caller op i hot cold
    rcases (call_timed hi caller op).cold i cold with hc' | hv
    · exact absurd (hc'.symm.trans hot) (by decide)
    · exact (hc.findVictim_iff hi _ i).mp hv

/-- The hot tier is full, and its first tenant has been acquired once more. -/
def rotatedCalls : List (Caller × Op) :=
  List.replicate 64 (halvingCaller, .createTenant) ++
    [(halvingCaller, .acquire .acquireFP32 ⟨1#64, true⟩), (halvingCaller, .release ⟨1#64, true⟩)]

/-- The next creation moves the second tenant. -/
theorem rotatedCalls_lru : ((new smallConfig).calls rotatedCalls).LeastRecent
    (uses (new smallConfig) rotatedCalls) kNoTenantId 1 := by
  have hlength : (uses (new smallConfig) rotatedCalls).length < 2 ^ 64 :=
    Nat.lt_of_le_of_lt (length_uses_le _ _) (by decide)
  have hvictim : ((new smallConfig).calls rotatedCalls).findVictim kNoTenantId = some 1 := by decide +kernel
  exact ((exact_lru rfl rfl hlength).2.2.1 kNoTenantId 1).mp hvictim

end Victims

end Qtx.TieredArenaBridge
