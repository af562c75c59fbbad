import Qtx.TieredContents
import Qtx.TieredPins

/-!
# The bridge as a map from tenants to payloads

For careful clients and a codec that computes two functions, every tenant stands for the
payload that its journal replays to. The journal has one recoding for each return from
the cold tier, and none while the tenant is pinned or sealed in the hot tier.
-/
namespace Qtx.TieredArenaBridge
open SpanMemory BufferJournals TransitionSystems FractalArena

variable {c : TieredConfig} {caller : Caller} {b b' : TieredArenaBridge c} {k : PayloadCodec c}

section Payloads

variable {i : ℕ} {p : List Byte}

theorem Upkeep.standsFor (hu : Upkeep caller b b') (h : Invariant b) (good : k.Computes caller.codec)
    (used : (b.tenants i).inUse = true) (hp : StandsFor k b i p) : StandsFor k b' i p := by
  induction hu with
  | refl => exact hp
  | @tail ev b₁ b₂ past next kind ih =>
    by_cases hsub : ev.subject = some i
    · cases ev with
      | scratch => cases hsub
      | evicted j =>
        cases hsub
        exact next.standsFor_of_evicted good ih
      | _ => exact kind.elim
    · exact (next.kept (past.invariant h) (by rw [Upkeep.inUse past, used]) hsub).standsFor ih

/-- A tenant that comes back from the cold tier is recoded once. -/
theorem Ready.standsFor (hr : Ready caller b i b') (h : Invariant b) (good : k.Computes caller.codec)
    (used : (b.tenants i).inUse = true) (hp : StandsFor k b i p) :
    StandsFor k b' i (if (b.tenants i).state = .kInCold then k.recode p else p) := by
  cases hr with
  | already hot =>
    rw [if_neg (by rw [hot]; decide)]
    exact hp
  | promoted cold upkeep next =>
    rw [if_pos cold]
    exact next.standsFor_of_promoted good (upkeep.standsFor h good used hp)

theorem Ready.standsFor_of_ne {j : ℕ} (hr : Ready caller b j b') (h : Invariant b)
    (good : k.Computes caller.codec) (hij : i ≠ j) (used : (b.tenants i).inUse = true) (hp : StandsFor k b i p) :
    StandsFor k b' i p := by
  cases hr with
  | already => exact hp
  | promoted cold upkeep next =>
    refine (next.kept (upkeep.invariant h) (by rw [upkeep.inUse, used]) ?_).standsFor
      (upkeep.standsFor h good used hp)
    exact fun heq => hij (Option.some.inj heq).symm

end Payloads

/-- The payload that a journal describes. -/
def journalPayload (k : PayloadCodec c) (kind : TenantKind) (es : List (Entry Byte)) : List Byte :=
  replay k.recode (List.replicate (payloadSize c kind) 0#8) es

def Recorded (k : PayloadCodec c) (b : TieredArenaBridge c) (journal : ℕ → List (Entry Byte)) : Prop :=
  ∀ i, (b.tenants i).inUse = true → StandsFor k b i (journalPayload k (b.tenants i).kind (journal i))

section Journals

variable {journal : ℕ → List (Entry Byte)} {i : ℕ} {es : List (Entry Byte)}

theorem Recorded.update (hother : ∀ j, j ≠ i → (b.tenants j).inUse = true →
      StandsFor k b j (journalPayload k (b.tenants j).kind (journal j)))
    (hself : (b.tenants i).inUse = true → StandsFor k b i (journalPayload k (b.tenants i).kind es)) :
    Recorded k b (Function.update journal i es) := by
  intro j hu
  by_cases hj : j = i
  · subst hj
    rw [Function.update_self]
    exact hself hu
  · rw [Function.update_of_ne hj]
    exact hother j hj hu

theorem Upkeep.recorded (hu : Upkeep caller b b') (h : Invariant b) (good : k.Computes caller.codec)
    (hr : Recorded k b journal) : Recorded k b' journal := by
  intro i used
  rw [hu.inUse] at used
  rw [((hu.sameTenants i).2 used).2.1]
  exact hu.standsFor h good used (hr i used)

/-- A change about nobody, or about a tenant that is gone afterwards. -/
theorem Step.recorded {ev : Event} (hs : Step caller b ev b') (h : Invariant b) (hr : Recorded k b journal)
    (hev : ∀ i, ev.subject = some i → (b'.tenants i).inUse = false) : Recorded k b' journal := by
  intro i used
  have hne : ev.subject ≠ some i := fun heq => absurd (used.symm.trans (hev i heq)) (by decide)
  have usedB : (b.tenants i).inUse = true := by rw [← hs.inUse_of_subject_ne hne, used]
  have hk := hs.kept h usedB hne
  rw [hk.record]
  exact hk.standsFor (hr i usedB)

theorem Step.recorded_of_created (hs : Step caller b (.created i) b') (h : Invariant b)
    (hr : Recorded k b journal) : Recorded k b' (Function.update journal i []) := by
  refine Recorded.update ?_ (fun _ => hs.standsFor_of_created h)
  intro j hj used
  have hne : (Event.created i).subject ≠ some j := fun heq => hj (Option.some.inj heq).symm
  have usedB : (b.tenants j).inUse = true := by rw [← hs.inUse_of_subject_ne hne, used]
  have hk := hs.kept h usedB hne
  rw [hk.record]
  exact hk.standsFor (hr j usedB)

theorem Step.recorded_of_touched (hs : Step caller b (.touched i) b') (h : Invariant b)
    (hr : Recorded k b journal) : Recorded k b' journal := by
  intro j used
  rw [(hs.sameTenants trivial j).1] at used
  rw [((hs.sameTenants trivial j).2 used).2.1]
  by_cases hj : j = i
  · subst hj
    exact hs.standsFor_of_touched (hr j used)
  · exact (hs.kept h used (fun heq => hj (Option.some.inj heq).symm)).standsFor (hr j used)

end Journals

section Operations

variable {s : Session c}

theorem restart_of_invalid (s : Session c) {handle : TenantHandle} (h : handle.isValid = false) :
    s.restart handle = s.journal := by
  unfold Session.restart
  cases s.bridge.acquireRecord with
  | none => rfl
  | some i => exact if_neg (by rw [h]; decide)

theorem recorded_create {kind : TenantKind} {res : TenantHandle × TieredArenaBridge c}
    (ho : CreateOutcome caller s.bridge kind res) (h : Invariant s.bridge) (good : k.Computes caller.codec)
    (hr : Recorded k s.bridge s.journal) : Recorded k res.2 (s.restart res.1) := by
  cases ho with
  | failed upkeep =>
    rw [restart_of_invalid s rfl]
    exact upkeep.recorded h good hr
  | @created i b₁ b₂ b₃ record upkeep opened next kindEq settled =>
    have h₁ := upkeep.invariant h
    have hr₁ := upkeep.recorded h good hr
    have h₂ : Invariant b₂ ∧ Recorded k b₂ s.journal := by
      rcases opened with rfl | hopen
      · exact ⟨h₁, hr₁⟩
      · exact ⟨hopen.invariant h₁, hopen.recorded h₁ hr₁ (fun i hf => nomatch hf)⟩
    have hrestart : s.restart ⟨(b₃.tenants i).tenantId, true⟩ = Function.update s.journal i [] := by
      simp only [Session.restart, record, if_true]
    dsimp only
    rw [hrestart]
    exact next.recorded_of_created h₂.1 h₂.2

theorem Step.inUse_of_destroyed {i : ℕ} (hs : Step caller b (.destroyed i) b') : (b'.tenants i).inUse = false := by
  cases hs with
  | destroyHot => rw [tenants_setTenant_self]; rfl
  | destroyCold => rw [tenants_setTenant_self]; rfl
  | destroyMicro => rw [tenants_setTenant_self]; rfl

theorem recorded_destroyTenant (h : Invariant s.bridge) (hr : Recorded k s.bridge s.journal) (caller : Caller)
    (handle : TenantHandle) : Recorded k (s.bridge.destroyTenant handle).2 s.journal := by
  have ho := destroyTenant_outcome h caller handle
  generalize s.bridge.destroyTenant handle = res at ho
  cases ho with
  | missing => exact hr
  | @destroyed i b₁ b₂ found next closed settled =>
    have hr₁ := next.recorded h hr (fun j hj => by
      cases hj
      exact next.inUse_of_destroyed)
    rcases closed with rfl | hclose
    · exact hr₁
    · exact hclose.recorded (next.invariant h) hr₁ (fun i hf => nomatch hf)

/-- What an acquire adds to the journal of a tenant that it shows. -/
def acquireEntries (b : TieredArenaBridge c) (i : ℕ) : List (Entry Byte) :=
  (if (b.tenants i).state = .kInCold then [.recode] else []) ++ [.read]

theorem journalPayload_acquireEntries (kind : TenantKind) (es : List (Entry Byte)) (i : ℕ) :
    journalPayload k kind (es ++ acquireEntries b i) = if (b.tenants i).state = .kInCold then
      k.recode (journalPayload k kind es) else journalPayload k kind es := by
  unfold acquireEntries journalPayload
  rw [replay_append]
  split_ifs
  · rfl
  · rfl

theorem journalAfter_of_failed (h : Invariant s.bridge) {path : AcquirePath} {handle : TenantHandle}
    {b₁ : TieredArenaBridge c} (hres : s.bridge.acquire path caller handle = (.none, b₁))
    (upkeep : Upkeep caller s.bridge b₁) : s.journalAfter caller (.acquire path handle) = s.journal := by
  simp only [Session.journalAfter, hres]
  cases found : s.bridge.findTenantLocked handle with
  | none => rfl
  | some i =>
    obtain ⟨-, used, -⟩ := findTenantLocked_some found
    have hstill : ¬((s.bridge.tenants i).state = .kInCold ∧ (b₁.tenants i).state = .kInHot) := by
      rintro ⟨hcold, hhot⟩
      rw [upkeep.tenants_of_cold h used hcold, hcold] at hhot
      cases hhot
    simp only [hstill, if_false, Span.isEmpty_none, if_true, List.append_nil, Function.update_eq_self]

theorem journalAfter_of_shown {path : AcquirePath} {handle : TenantHandle} {i : ℕ}
    (found : s.bridge.findTenantLocked handle = some i)
    (shown : (s.bridge.acquire path caller handle).1.isEmpty = false)
    (hot : (((s.bridge.acquire path caller handle).2).tenants i).state = .kInHot) :
    s.journalAfter caller (.acquire path handle) =
      Function.update s.journal i (s.journal i ++ acquireEntries s.bridge i) := by
  simp only [Session.journalAfter, found, shown, hot, and_true, Bool.false_eq_true, if_false, acquireEntries,
    List.append_assoc]

theorem recorded_acquire (h : Invariant s.bridge) (good : k.Computes caller.codec)
    (hr : Recorded k s.bridge s.journal) (path : AcquirePath) (handle : TenantHandle) :
    Recorded k (s.bridge.acquire path caller handle).2 (s.journalAfter caller (.acquire path handle)) := by
  have ho := acquire_outcome h caller path handle
  generalize hres : s.bridge.acquire path caller handle = res at ho
  cases ho with
  | failed upkeep =>
    rw [journalAfter_of_failed h hres upkeep]
    exact upkeep.recorded h good hr
  | @pinned i b₁ b₂ accessTime found admitted ready below next record =>
    have hot : (b₂.tenants i).state = .kInHot := by
      rw [record]
      exact ready.hot
    rw [journalAfter_of_shown found (by rw [hres]; exact path.region_isEmpty _) (by rw [hres]; exact hot)]
    refine next.recorded_of_touched (ready.invariant h) (Recorded.update ?_ ?_)
    · intro j hj used
      rw [(ready.sameTenants j).1] at used
      rw [((ready.sameTenants j).2 used).2.1]
      exact ready.standsFor_of_ne h good hj used (hr j used)
    · intro used
      rw [(ready.sameTenants i).1] at used
      rw [((ready.sameTenants i).2 used).2.1, journalPayload_acquireEntries]
      exact ready.standsFor h good used (hr i used)

theorem recorded_call (h : Invariant s.bridge) (good : k.Computes caller.codec)
    (hr : Recorded k s.bridge s.journal) (op : Op) :
    Recorded k (s.bridge.call caller op) (s.journalAfter caller op) := by
  cases op with
  | createTenant => exact recorded_create (createTenant_outcome h caller) h good hr
  | createMicroTenant => exact recorded_create (createMicroTenant_outcome h caller) h good hr
  | destroyTenant handle => exact recorded_destroyTenant h hr caller handle
  | acquire path handle => exact recorded_acquire h good hr path handle
  | release handle =>
    have ho := release_outcome h caller handle
    simp only [call, Session.journalAfter]
    generalize s.bridge.release handle = res at ho
    cases ho with
    | refused => exact hr
    | unpinned found pinned next record => exact next.recorded_of_touched h hr
  | sealTenant handle =>
    have ho := sealTenant_outcome h caller handle
    simp only [call, Session.journalAfter]
    generalize s.bridge.sealTenant handle = res at ho
    cases ho with
    | missing => exact hr
    | sealed found next record => exact next.recorded_of_touched h hr

theorem recorded_write (h : Invariant s.bridge) (hr : Recorded k s.bridge s.journal) {i j : ℕ}
    (used : (s.bridge.tenants i).inUse = true) (hot : (s.bridge.tenants i).state = .kInHot)
    (hj : j < (hotRegion c (s.bridge.tenants i)).length) (value : Byte) :
    Recorded k (s.write i (hotRegion c (s.bridge.tenants i)) j value).bridge
      (s.write i (hotRegion c (s.bridge.tenants i)) j value).journal := by
  refine Recorded.update ?_ ?_
  · intro l hl usedL
    obtain ⟨hlen, hhot, hcold⟩ := hr l usedL
    refine ⟨hlen, fun hs => ?_, hcold⟩
    exact (load_assign_of_disjoint (h.hotRegion_disjoint hl used hot usedL hs)).trans (hhot hs)
  · intro _
    obtain ⟨hlen, hhot, hcold⟩ := hr i used
    have hset : journalPayload k (s.bridge.tenants i).kind (s.journal i ++ [.write j value]) =
        (journalPayload k (s.bridge.tenants i).kind (s.journal i)).set j value := by
      simp only [journalPayload, replay_append]
      rfl
    refine ⟨?_, ?_, ?_⟩
    · exact (congrArg List.length hset).trans (List.length_set.trans hlen)
    · intro hs
      exact (load_assign_self _ _ value hj).trans ((congrArg (List.set · j value) (hhot hs)).trans hset.symm)
    · intro hs
      exact absurd (hs.symm.trans hot) (by decide)

end Operations

/-- Careful clients and a codec that computes the two functions. -/
def Faithful (k : PayloadCodec c) (s : Session c) (a : Act) : Prop :=
  Careful s a ∧ ∀ caller op, a = .call caller op → k.Computes caller.codec

theorem Faithful.careful {s : Session c} (hs : (sessions c).Steps (Faithful k) (sessions c).init s) :
    (sessions c).Steps Careful (sessions c).init s :=
  hs.mono (fun _ _ h => h.1)

theorem recorded_session {s : Session c}
    (hs : (sessions c).Steps (Faithful k) (sessions c).init s) : Recorded k s.bridge s.journal := by
  have hinv : Invariant s.bridge ∧ Holds s.bridge s.held ∧ Recorded k s.bridge s.journal := by
    refine hs.preserves (P := fun s => Invariant s.bridge ∧ Holds s.bridge s.held ∧
      Recorded k s.bridge s.journal) ⟨invariant_new c, holds_init c, fun i hu => nomatch hu⟩ ?_
    intro s a s' ih faithful next
    obtain ⟨h, hh, hr⟩ := ih
    cases a with
    | call caller op =>
      cases next
      exact ⟨call_invariant h caller op, holds_call h hh caller op faithful.1,
        recorded_call h (faithful.2 caller op rfl) hr op⟩
    | write i v j value =>
      simp only [sessions, Session.step] at next
      split_ifs at next with hv
      cases next
      obtain ⟨hmem, hj⟩ := hv
      have used := (hh.pinned hmem).1
      have hot := hh.hot h hmem
      rw [hh.region i v hmem] at hj ⊢
      exact ⟨invariant_write h used hot j value, ⟨hh.count, hh.free, hh.region⟩,
        recorded_write h hr used hot hj value⟩
  exact hinv.2.2

section Guards

variable {s s' : Session c} {i : ℕ}

theorem inUse_of_destroyTenant (h : Invariant b) (caller : Caller) {handle : TenantHandle}
    (found : b.findTenantLocked handle = some i) : ((b.destroyTenant handle).2.tenants i).inUse = false := by
  have ho := destroyTenant_outcome h caller handle
  generalize b.destroyTenant handle = res at ho
  cases ho with
  | missing hnone => cases hnone.symm.trans found
  | @destroyed j b₁ b₂ found' next closed settled =>
    obtain rfl := Option.some.inj (found.symm.trans found')
    rcases closed with rfl | hclose
    · exact next.inUse_of_destroyed
    · exact (hclose.inUse_of_subject_ne (fun hf => nomatch hf)).trans next.inUse_of_destroyed

/-- A hot tenant in use gets no recoding from any operation. -/
theorem recodings_call (caller : Caller) (op : Op) (used : (s.bridge.tenants i).inUse = true)
    (hot : (s.bridge.tenants i).state = .kInHot) :
    recodings (s.journalAfter caller op i) = recodings (s.journal i) := by
  have hrestart : ∀ handle, recodings (s.restart handle i) = recodings (s.journal i) := by
    intro handle
    unfold Session.restart
    cases record : s.bridge.acquireRecord with
    | none => rfl
    | some j =>
      dsimp only
      split_ifs
      · rw [Function.update_of_ne]
        rintro rfl
        exact absurd (used.symm.trans (acquireRecord_some record).2) (by decide)
      · rfl
  cases op with
  | createTenant => exact hrestart _
  | createMicroTenant => exact hrestart _
  | destroyTenant handle => rfl
  | acquire path handle =>
    simp only [Session.journalAfter]
    cases s.bridge.findTenantLocked handle with
    | none => rfl
    | some j =>
      dsimp only
      by_cases hij : i = j
      · subst hij
        rw [Function.update_self, if_neg (fun hf => absurd (hot.symm.trans hf.1) (by decide)), List.append_nil]
        apply recodings_append_of_notMem
        split_ifs
        · exact List.not_mem_nil
        · simp
      · rw [Function.update_of_ne hij]
  | release handle => rfl
  | sealTenant handle => rfl

/-- One act leaves a pinned or sealed tenant in the hot tier and its bytes uncoded. -/
theorem guarded_step {a : Act} (h : Invariant s.bridge) (next : (sessions c).step s a = some s')
    (used : (s.bridge.tenants i).inUse = true) (hot : (s.bridge.tenants i).state = .kInHot)
    (guarded : (s.bridge.tenants i).pinCount ≠ 0#32 ∨ (s.bridge.tenants i).sealed = true) :
    recodings (s'.journal i) = recodings (s.journal i) ∧ ((s'.bridge.tenants i).inUse = true →
      (s'.bridge.tenants i).state = .kInHot ∧
        ((s.bridge.tenants i).sealed = true → (s'.bridge.tenants i).sealed = true)) := by
  cases a with
  | call caller op =>
    cases next
    refine ⟨recodings_call caller op used hot, fun used' => ?_⟩
    have hstayed : Stayed s.bridge (s.bridge.call caller op) i := by
      refine call_stayed h caller op used hot (guarded.elim (fun hp => .inr (.inl hp))
        (fun hs => .inr (.inr (.inl hs)))) ?_
      rintro handle rfl found
      exact absurd (used'.symm.trans (inUse_of_destroyTenant h caller found)) (by decide)
    obtain ⟨pinCount, accessTime, sealed, hsealed, hrec⟩ := hstayed.record
    change ((s.bridge.call caller op).tenants i).state = _ ∧ (_ → ((s.bridge.call caller op).tenants i).sealed = _)
    rw [hrec]
    exact ⟨hot, hsealed⟩
  | write l v j value =>
    simp only [sessions, Session.step] at next
    split_ifs at next with hv
    cases next
    refine ⟨?_, fun _ => ⟨hot, id⟩⟩
    by_cases hil : i = l
    · subst hil
      simp only [Session.write, Function.update_self]
      exact recodings_append_of_notMem _ (by simp)
    · simp only [Session.write, Function.update_of_ne hil]

/-- A whole run while the tenant is pinned at every step, or sealed from the start. -/
theorem guarded_run (hs : (sessions c).Steps (Faithful k) (sessions c).init s)
    (hot : (s.bridge.tenants i).state = .kInHot)
    (run : (sessions c).Steps (fun t a => Faithful k t a ∧ (t.bridge.tenants i).inUse = true ∧
      ((t.bridge.tenants i).pinCount ≠ 0#32 ∨ (s.bridge.tenants i).sealed = true)) s s') :
    recodings (s'.journal i) = recodings (s.journal i) ∧
      ((s'.bridge.tenants i).inUse = true → (s'.bridge.tenants i).state = .kInHot) := by
  have hall : (sessions c).Steps (Faithful k) (sessions c).init s' ∧
      recodings (s'.journal i) = recodings (s.journal i) ∧ ((s'.bridge.tenants i).inUse = true →
        (s'.bridge.tenants i).state = .kInHot ∧
          ((s.bridge.tenants i).sealed = true → (s'.bridge.tenants i).sealed = true)) := by
    refine run.preserves (P := fun t => (sessions c).Steps (Faithful k) (sessions c).init t ∧
      recodings (t.journal i) = recodings (s.journal i) ∧ ((t.bridge.tenants i).inUse = true →
        (t.bridge.tenants i).state = .kInHot ∧
          ((s.bridge.tenants i).sealed = true → (t.bridge.tenants i).sealed = true)))
      ⟨hs, rfl, fun _ => ⟨hot, id⟩⟩ ?_
    rintro t a t' ⟨ht, hrecodings, hkept⟩ ⟨faithful, used, guard⟩ next
    obtain ⟨hhot, hsealed⟩ := hkept used
    obtain ⟨hrec', hkept'⟩ := guarded_step (session_invariant (Faithful.careful ht)).1 next used hhot
      (guard.imp_right hsealed)
    refine ⟨.snoc ht faithful next, hrec'.trans hrecodings, fun used' => ?_⟩
    exact ⟨(hkept' used').1, fun hsl => (hkept' used').2 (hsealed hsl)⟩
  exact ⟨hall.2.1, fun used' => (hall.2.2 used').1⟩

end Guards

/-- An acquire shows the payload that the journal of its tenant replays to, and extends
the journal by one recoding exactly when the tenant comes back from the cold tier. -/
theorem acquire_reads {s : Session c} (hs : (sessions c).Steps (Faithful k) (sessions c).init s)
    {path : AcquirePath} {handle : TenantHandle} (faithful : Faithful k s (.call caller (.acquire path handle)))
    {i : ℕ} (found : s.bridge.findTenantLocked handle = some i)
    (shown : (s.bridge.acquire path caller handle).1.isEmpty = false) :
    load (s.bridge.acquire path caller handle).2.hot.die (s.bridge.acquire path caller handle).1 =
      journalPayload k (s.bridge.tenants i).kind ((s.call caller (.acquire path handle)).journal i) ∧
    (s.call caller (.acquire path handle)).journal i = s.journal i ++ acquireEntries s.bridge i := by
  obtain ⟨h, hh⟩ := session_invariant (Faithful.careful hs)
  have hr' := recorded_acquire h (faithful.2 _ _ rfl) (recorded_session hs) path handle
  rcases acquire_region h caller path handle faithful.1 with hnone | ⟨j, found', used', hot', hregion⟩
  · rw [hnone] at shown
    cases shown
  · obtain rfl := Option.some.inj (found.symm.trans found')
    have hstands := hr' i used'
    have hkind : (((s.bridge.acquire path caller handle).2).tenants i).kind = (s.bridge.tenants i).kind :=
      ((acquire_sameTenants h caller path handle i).2 (findTenantLocked_some found).2.1).2.1
    refine ⟨?_, ?_⟩
    · rw [hregion, hstands.hot hot', hkind]
      rfl
    · exact (congrFun (journalAfter_of_shown found shown hot') i).trans (Function.update_self ..)

/-- In every run of careful clients an acquire shows the bytes last written for its
tenant, decoded from their encoding once for each return from the cold tier; a tenant
that was neither acquired nor evicted before reads as zeros; and a tenant that is pinned
throughout, or sealed in the hot tier, stays there and is never recoded. -/
theorem refines_payloads {s : Session c} (hs : (sessions c).Steps (Faithful k) (sessions c).init s) :
    (∀ caller path handle i, Faithful k s (.call caller (.acquire path handle)) →
      s.bridge.findTenantLocked handle = some i → (s.bridge.acquire path caller handle).1.isEmpty = false →
      load (s.bridge.acquire path caller handle).2.hot.die (s.bridge.acquire path caller handle).1 =
          journalPayload k (s.bridge.tenants i).kind ((s.call caller (.acquire path handle)).journal i) ∧
        (s.call caller (.acquire path handle)).journal i =
          s.journal i ++ (if (s.bridge.tenants i).state = .kInCold then [.recode] else []) ++ [.read] ∧
        (s.journal i = [] → (s.bridge.tenants i).state = .kInHot →
          load (s.bridge.acquire path caller handle).2.hot.die (s.bridge.acquire path caller handle).1 =
            List.replicate (payloadSize c (s.bridge.tenants i).kind) 0#8)) ∧
    ∀ i s', (s.bridge.tenants i).state = .kInHot →
      (sessions c).Steps (fun t a => Faithful k t a ∧ (t.bridge.tenants i).inUse = true ∧
        ((t.bridge.tenants i).pinCount ≠ 0#32 ∨ (s.bridge.tenants i).sealed = true)) s s' →
      recodings (s'.journal i) = recodings (s.journal i) ∧
        ((s'.bridge.tenants i).inUse = true → (s'.bridge.tenants i).state = .kInHot) := by
  refine ⟨?_, fun i s' hot run => guarded_run hs hot run⟩
  intro caller path handle i faithful found shown
  obtain ⟨hload, hjournal⟩ := acquire_reads hs faithful found shown
  refine ⟨hload, hjournal.trans (List.append_assoc ..).symm, fun hnew hhot => ?_⟩
  rw [hload, hjournal, journalPayload_acquireEntries, if_neg (by rw [hhot]; decide), hnew]
  rfl

/-- The two functions of `halvingCaller`. -/
def halvingCodec : PayloadCodec smallConfig where
  enc p := (List.range 72).map (fun i => p.getD (2 * i) 0#8)
  dec p := (List.range 256).map (fun i => p.getD (i / 2) 0#8)
  length_enc p _ := by rw [List.length_map, List.length_range]; rfl
  length_dec p _ := by rw [List.length_map, List.length_range]; rfl

theorem halvingCaller_computes : halvingCodec.Computes halvingCaller.codec :=
  ⟨fun _ _ _ => ⟨rfl, List.prefix_rfl⟩, fun _ _ _ => ⟨rfl, List.prefix_rfl⟩⟩

/-- A tenant writes two bytes and lets go of its span. -/
def writtenSession : Session smallConfig :=
  ((heldSession.write 0 ⟨0, 256⟩ 0 170#8).write 0 ⟨0, 256⟩ 1 85#8).call halvingCaller (.release ⟨1#64, true⟩)

/-- Another `n` tenants are created. -/
def Session.crowd (s : Session smallConfig) : ℕ → Session smallConfig
  | 0 => s
  | n + 1 => (s.crowd n).call halvingCaller .createTenant

theorem faithful_halvingCaller {s : Session smallConfig} {op : Op} (hc : Careful s (.call halvingCaller op)) :
    Faithful halvingCodec s (.call halvingCaller op) := by
  refine ⟨hc, fun caller op' hact => ?_⟩
  cases hact
  exact halvingCaller_computes

theorem faithful_createTenant (s : Session smallConfig) :
    Faithful halvingCodec s (.call halvingCaller .createTenant) :=
  faithful_halvingCaller ⟨fun _ _ _ hf => (nomatch hf), fun _ _ _ hf => nomatch hf⟩

theorem faithful_acquireFP32 {s : Session smallConfig} {handle : TenantHandle} {i : ℕ}
    (found : s.bridge.findTenantLocked handle = some i) (full : (s.bridge.tenants i).kind = .kFullSlot) :
    Faithful halvingCodec s (.call halvingCaller (.acquire .acquireFP32 handle)) := by
  refine faithful_halvingCaller ⟨fun _ _ _ hf => (nomatch hf), ?_⟩
  rintro caller handle' j hact found'
  cases hact
  obtain rfl := Option.some.inj (found.symm.trans found')
  exact full

theorem faithful_write (s : Session smallConfig) (i : ℕ) (v : Span) (j : ℕ) (value : Byte) :
    Faithful halvingCodec s (.write i v j value) :=
  ⟨⟨fun _ _ _ hf => (nomatch hf), fun _ _ _ hf => nomatch hf⟩, fun _ _ hf => nomatch hf⟩

theorem faithful_crowd {s : Session smallConfig}
    (hs : (sessions smallConfig).Steps (Faithful halvingCodec) (sessions smallConfig).init s) (n : ℕ) :
    (sessions smallConfig).Steps (Faithful halvingCodec) (sessions smallConfig).init (s.crowd n) := by
  induction n with
  | zero => exact hs
  | succ n ih => exact .snoc ih (faithful_createTenant _) (step_call _ _ _)

theorem writtenSession_faithful :
    (sessions smallConfig).Steps (Faithful halvingCodec) (sessions smallConfig).init writtenSession := by
  have hcreated : ((sessions smallConfig).init.call halvingCaller .createTenant).bridge.findTenantLocked
      ⟨1#64, true⟩ = some 0 ∧
        (((sessions smallConfig).init.call halvingCaller .createTenant).bridge.tenants 0).kind =
        .kFullSlot := by decide +kernel
  have hsession : (sessions smallConfig).Steps (Faithful halvingCodec) (sessions smallConfig).init heldSession :=
    .snoc (.snoc .refl (faithful_createTenant _) (step_call _ _ _))
      (faithful_acquireFP32 hcreated.1 hcreated.2) (step_call _ _ _)
  have hheld : (⟨0, 256⟩ : Span) ∈ heldSession.held 0 := by decide +kernel
  have hheld' : (⟨0, 256⟩ : Span) ∈ (heldSession.write 0 ⟨0, 256⟩ 0 170#8).held 0 := by simpa using hheld
  have hfirst := hsession.snoc (faithful_write _ 0 ⟨0, 256⟩ 0 170#8) (step_write hheld (by decide))
  have hsecond := hfirst.snoc (faithful_write _ 0 ⟨0, 256⟩ 1 85#8) (step_write hheld' (by decide))
  refine hsecond.snoc ?_ (step_call _ halvingCaller (.release ⟨1#64, true⟩))
  exact faithful_halvingCaller ⟨fun _ _ _ hf => (nomatch hf), fun _ _ _ hf => nomatch hf⟩

/-- Sixty-four more tenants send the first one to the cold tier; it comes back with its
second byte replaced by the first. -/
theorem crowdedSession_reads_recoded :
    load ((writtenSession.crowd 64).bridge.acquire .acquireFP32 halvingCaller ⟨1#64, true⟩).2.hot.die
      ((writtenSession.crowd 64).bridge.acquire .acquireFP32 halvingCaller ⟨1#64, true⟩).1 =
        170#8 :: 170#8 :: List.replicate 254 0#8 := by
  have hrun : (writtenSession.crowd 64).bridge.findTenantLocked ⟨1#64, true⟩ = some 0 ∧
      ((writtenSession.crowd 64).bridge.acquire .acquireFP32 halvingCaller ⟨1#64, true⟩).1.isEmpty = false ∧
      (writtenSession.crowd 64).journal 0 = [.read, .write 0 170#8, .write 1 85#8] ∧
      ((writtenSession.crowd 64).bridge.tenants 0).state = .kInCold ∧
      ((writtenSession.crowd 64).bridge.tenants 0).kind = .kFullSlot := by decide +kernel
  obtain ⟨hfound, hshown, hjournal, hcold, hkind⟩ := hrun
  obtain ⟨hload, hafter, -⟩ := (refines_payloads (faithful_crowd writtenSession_faithful 64)).1 halvingCaller
    .acquireFP32 ⟨1#64, true⟩ 0 (faithful_acquireFP32 hfound hkind) hfound hshown
  rw [hload, hafter, hjournal, hkind, if_pos hcold]
  decide +kernel

end Qtx.TieredArenaBridge
