import Qtx.GgmlBridgeContents
import Qtx.GgmlBridgeRuns

/-!
# Sealed buffers

A seal lasts until its buffer is freed and does not pass to the next owner of the
context. Only the bridge that made a buffer can seal it, since no two bridges have one
token.
-/
namespace Qtx.GgmlBridge
open SpanMemory FirstFitPools FractalArena OwnershipTables TransitionSystems

variable {α : Type} {host : Host α} {s s' : State host} {aa : ArenaAccess α} {h : ℕ} {buf : BackendBuffer α}

namespace Host

theorem serial_mono {b b' : ℕ} (h : b ≤ b') : host.serial b ≤ host.serial b' :=
  (List.take_sublist_take_left h).countP_le

theorem serial_lt_of_lt {b b' : ℕ} (hacc : host.arenaAccess b = some aa) (h : b < b') :
    host.serial b < host.serial b' := by
  refine Nat.lt_of_lt_of_le ?_ (serial_mono (Nat.succ_le_of_lt h))
  unfold arenaAccess at hacc
  split at hacc
  case h_1 a cfg hget =>
    obtain ⟨hlt, hb⟩ := List.getElem?_eq_some_iff.mp hget
    rw [serial, serial, List.take_succ_eq_append_getElem hlt, List.countP_append, hb]
    simp
  case h_2 => cases hacc

theorem serial_lt (b : ℕ) : host.serial b < 2 ^ 63 := by
  have hlen : host.serial b ≤ (host.bridges.take b).length := List.countP_le_length
  have htake : (host.bridges.take b).length ≤ host.bridges.length := List.length_take_le' _ _
  have hfit := host.bridges_fit
  omega

theorem installToken_eq {b : ℕ} (hacc : host.arenaAccess b = some aa) :
    aa.header.installToken = nextInstallToken (host.serial b) := by
  unfold arenaAccess at hacc
  split at hacc
  · rw [← Option.some.inj hacc]
    rfl
  · cases hacc

/-- No two bridges have the same token. -/
theorem installToken_inj {b b' : ℕ} {aa' : ArenaAccess α} (hacc : host.arenaAccess b = some aa)
    (hacc' : host.arenaAccess b' = some aa') (h : aa.header.installToken = aa'.header.installToken) : b = b' := by
  rw [installToken_eq hacc, installToken_eq hacc'] at h
  have hserial := nextInstallToken_inj (serial_lt b) (serial_lt b') h
  rcases Nat.lt_trichotomy b b' with hlt | heq | hgt
  · exact absurd hserial (Nat.ne_of_lt (serial_lt_of_lt hacc hlt))
  · exact heq
  · exact absurd hserial.symm (Nat.ne_of_lt (serial_lt_of_lt hacc' hgt))

end Host

theorem BufferContext.writeProtected_seal (ctx : BufferContext α) : ctx.seal.writeProtected ≠ 0#32 := by
  unfold BufferContext.seal
  split_ifs with hw
  · simp
  · exact hw

/-- The buffer of a handle is live and sealed. -/
structure Sealed (s : State host) (h : ℕ) (buf : BackendBuffer α) : Prop where
  live : s.liveBuffer h = some buf
  sealed : (s.contextOf buf).writeProtected ≠ 0#32

theorem Sealed.congr (hs : Sealed s h buf) (live : s'.liveBuffer h = s.liveBuffer h)
    (context : s'.contextOf buf = s.contextOf buf) : Sealed s' h buf := by
  refine ⟨live.trans hs.live, ?_⟩
  rw [context]
  exact hs.sealed

theorem Invariant.lt_of_live (inv : Invariant s) (hl : s.liveBuffer h = some buf) : h ≠ s.buffers.length :=
  Nat.ne_of_lt (inv.issued h (State.liveBuffer_eq_some.mp hl).1)

variable [DecidableEq α]

omit [DecidableEq α] in
theorem bytes_setContext (s : State host) (i : ℕ) (buf : BackendBuffer α) :
    (s.setContext i .seal).bytes buf = s.bytes buf := by
  by_cases hi : buf.context = i
  · subst hi
    obtain ⟨w, hw⟩ := (s.contextOf buf).exists_seal
    exact bytes_congr (Pool.storage_modify_self.trans hw) (fun _ _ _ _ _ => rfl)
  · exact bytes_congr (w := (s.contextOf buf).writeProtected) (Pool.storage_modify_of_ne hi) (fun _ _ _ _ _ => rfl)

/-- No change but its own end reaches a sealed buffer. -/
theorem Sealed.change (hs : Sealed s h buf) (inv : Invariant s) {gone : Option ℕ} (hc : Change s gone s')
    (hgone : gone ≠ some h) : Sealed s' h buf ∧ s'.bytes buf = s.bytes buf := by
  cases hc with
  | undone hu =>
      exact ⟨hs.congr (congrFun hu.liveBuffer_eq h) (hu.contextOf_of_live inv hs.live), hu.bytes_eq inv hs.live⟩
  | made _ hm =>
    refine ⟨hs.congr ?_ (hm.contextOf_of_live inv hs.live), hm.bytes_eq inv hs.live⟩
    rw [hm.liveBuffer_eq, Function.update_of_ne (inv.lt_of_live hs.live)]
  | @wrote k buf' a r die live unsealed region frame =>
    have hne : h ≠ k := by
      rintro rfl
      rw [hs.live, Option.some.injEq] at live
      exact hs.sealed (live ▸ unsealed)
    exact ⟨⟨hs.live, hs.sealed⟩, bytes_setDie inv live region frame hs.live hne⟩
  | @sealed k buf' live =>
    refine ⟨⟨hs.live, ?_⟩, bytes_setContext s _ buf⟩
    by_cases hi : buf.context = buf'.context
    · rw [State.contextOf, hi]
      change ((s.pool.modify buf'.context .seal).storage buf'.context).writeProtected ≠ 0#32
      rw [Pool.storage_modify_self]
      exact BufferContext.writeProtected_seal _
    · change ((s.pool.modify buf'.context .seal).storage buf.context).writeProtected ≠ 0#32
      rw [Pool.storage_modify_of_ne hi]
      exact hs.sealed
  | @freed k buf' live =>
    have hne : h ≠ k := fun heq => hgone (congrArg some heq.symm)
    refine ⟨hs.congr ?_ (contextOf_free_of_ne (inv.context_ne hs.live live hne)), bytes_free inv live hs.live hne⟩
    rw [liveBuffer_free, Function.update_of_ne hne]

/-- A seal and the sealed bytes outlast every run that does not free the buffer. -/
theorem Sealed.run {t : State host} (hs : Sealed s h buf) (inv : Invariant s)
    (run : (system host).Steps (fun s op => Live s op ∧ op.freed ≠ some h) s t) :
    Sealed t h buf ∧ t.bytes buf = s.bytes buf := by
  have hall : Invariant t ∧ Sealed t h buf ∧ t.bytes buf = s.bytes buf := by
    refine run.preserves (P := fun t => Invariant t ∧ Sealed t h buf ∧ t.bytes buf = s.bytes buf) ⟨inv, hs, rfl⟩ ?_
    rintro t op u ⟨ht, hst, hbytes⟩ ⟨hlive, hfreed⟩ next
    cases next
    have hc := ht.apply_change hlive
    obtain ⟨hsu, hkept⟩ := hst.change ht hc hfreed
    exact ⟨ht.change hc, hsu, hkept.trans hbytes⟩
  exact hall.2

omit [DecidableEq α] in
theorem sealed_of_answer {bridge : ℕ} (hl : s.liveBuffer h = some buf)
    (hseal : sealBuffer s bridge (some h) = (.answer true, s')) : s' = s.setContext buf.context .seal := by
  simp only [sealBuffer, deref_of_live hl] at hseal
  split_ifs at hseal
  · simp at hseal
  · simp at hseal
  · cases hacc : host.arenaAccess bridge with
    | none => simp [hacc] at hseal
    | some own =>
      simp only [hacc] at hseal
      split_ifs at hseal
      · simp at hseal
      · exact (Prod.mk.inj hseal).2.symm

omit [DecidableEq α] in
/-- The bridge of a buffer never changes, and no other bridge seals it. -/
theorem Invariant.sealBuffer_other (inv : Invariant s) (hl : s.liveBuffer h = some buf) {bridge other : ℕ}
    (hacc : host.arenaAccess bridge = some buf.buft) (hne : other ≠ bridge) :
    sealBuffer s other (some h) = (.answer false, s) := by
  have hh := inv.holds h buf hl
  have htoken : buf.buft.header.installToken ≠ 0#64 := by
    rw [Host.installToken_eq hacc]
    exact nextInstallToken_ne_zero _
  simp only [sealBuffer, deref_of_live hl, hh.header, hh.token, htoken, Bool.not_true, Bool.false_eq_true, if_false]
  cases hown : host.arenaAccess other with
  | none => rfl
  | some own =>
    have hdiff : buf.buft.header.installToken ≠ own.header.installToken :=
      fun heq => hne (Host.installToken_inj hown hacc heq.symm)
    simp only [hdiff, ne_eq, not_false_eq_true, if_true]

theorem Change.buffers_prefix {gone : Option ℕ} (hc : Change s gone s') : s.buffers <+: s'.buffers := by
  cases hc with
  | undone hu => rw [hu.buffers]
  | made _ hm => exact hm.buffers ▸ List.prefix_append _ _
  | wrote _ _ _ _ => exact List.prefix_rfl
  | sealed _ => exact List.prefix_rfl
  | freed _ => exact List.prefix_rfl

theorem buffers_prefix_of_live {t : State host} (inv : Invariant s) (run : (system host).Steps Live s t) :
    s.buffers <+: t.buffers := by
  have hall : Invariant t ∧ s.buffers <+: t.buffers := by
    refine run.preserves (P := fun t => Invariant t ∧ s.buffers <+: t.buffers) ⟨inv, List.prefix_rfl⟩ ?_
    rintro t op u ⟨ht, hp⟩ hop next
    cases next
    have hc := ht.apply_change hop
    exact ⟨ht.change hc, hp.trans hc.buffers_prefix⟩
  exact hall.2

/-- In every run of calls through live handles, over any number of bridges: from a seal
until the buffer is freed its bytes stay what they were, a buffer just made is not
sealed, and a bridge that did not make a buffer cannot seal it and changes nothing. -/
theorem seal_persistent (host : Host α) {s : State host} (run : (system host).Steps Live (.new host) s) :
    (∀ bridge h s₁ t, h ∈ s.live → sealBuffer s bridge (some h) = (.answer true, s₁) →
      (system host).Steps (fun s op => Live s op ∧ op.freed ≠ some h) s₁ t →
      ∃ buf, s.liveBuffer h = some buf ∧ t.liveBuffer h = some buf ∧ t.bytes buf = s.bytes buf ∧
        (t.contextOf buf).writeProtected ≠ 0#32) ∧
    (∀ bridge size mixThreadId succeeds h s₁,
      allocBuffer s bridge size mixThreadId succeeds = (.handle (some h), s₁) →
      ∃ buf, s₁.liveBuffer h = some buf ∧ (s₁.contextOf buf).writeProtected = 0#32 ∧
        ∀ b, isBufferSealed s₁ b (some h) = .answer false) ∧
    ∀ bridge size mixThreadId succeeds h s₁ t other,
      allocBuffer s bridge size mixThreadId succeeds = (.handle (some h), s₁) → (system host).Steps Live s₁ t →
      h ∈ t.live → other ≠ bridge → sealBuffer t other (some h) = (.answer false, t) := by
  have inv : Invariant s := invariant_of_live (.initial host) run
  have hmade : ∀ bridge size t succeeds h s₁, allocBuffer s bridge size t succeeds = (.handle (some h), s₁) →
      ∃ aa i ctx, host.arenaAccess bridge = some aa ∧ h = s.buffers.length ∧ Made s aa size i ctx s₁ := by
    intro bridge size t succeeds h s₁ halloc
    rcases allocBuffer_cases s bridge size t succeeds with ⟨s', hs, -⟩ | ⟨aa, i, ctx, s', hacc, hs, hm⟩
    · rw [hs] at halloc
      cases (Prod.mk.inj halloc).1
    · rw [hs, Prod.mk.injEq, Response.handle.injEq, Option.some.injEq] at halloc
      obtain ⟨rfl, rfl⟩ := halloc
      exact ⟨aa, i, ctx, hacc, rfl, hm⟩
  refine ⟨?_, ?_, ?_⟩
  · intro bridge h s₁ t hlive hseal hrun
    obtain ⟨buf, hl⟩ := inv.exists_liveBuffer hlive
    obtain rfl := sealed_of_answer hl hseal
    have hstart : Sealed (s.setContext buf.context .seal) h buf := by
      refine ⟨hl, ?_⟩
      change ((s.pool.modify buf.context .seal).storage buf.context).writeProtected ≠ 0#32
      rw [Pool.storage_modify_self]
      exact BufferContext.writeProtected_seal _
    obtain ⟨hend, hbytes⟩ := hstart.run (inv.sealed hl) hrun
    exact ⟨buf, hl, hend.live, hbytes.trans (bytes_setContext s _ buf), hend.sealed⟩
  · intro bridge size t succeeds h s₁ halloc
    obtain ⟨aa, i, ctx, hacc, rfl, hm⟩ := hmade bridge size t succeeds h s₁ halloc
    have hl : s₁.liveBuffer s.buffers.length = some ⟨aa, i, size⟩ := by
      rw [hm.liveBuffer_eq, Function.update_self]
    have hun : (s₁.contextOf ⟨aa, i, size⟩).writeProtected = 0#32 := by
      rw [hm.contextOf_self]
      exact hm.unsealed
    refine ⟨_, hl, hun, ?_⟩
    intro b
    have hh := (inv.made hacc hm).holds _ _ hl
    simp only [isBufferSealed, deref_of_live hl, hh.header, hun, Bool.not_true, Bool.false_eq_true, if_false, ne_eq,
      not_true_eq_false, decide_false]
    cases host.arenaAccess b with
    | none => rfl
    | some own => exact ite_self _
  · intro bridge size mixThreadId succeeds h s₁ t other halloc hrun hlive hne
    obtain ⟨aa, i, ctx, hacc, rfl, hm⟩ := hmade bridge size mixThreadId succeeds h s₁ halloc
    have inv₁ := inv.made hacc hm
    have inv_t := invariant_of_live inv₁ hrun
    have hget : t.buffers[s.buffers.length]? = some ⟨aa, i, size⟩ := by
      have hpre := buffers_prefix_of_live inv₁ hrun
      rw [hm.buffers] at hpre
      exact (List.prefix_iff_getElem?.mp hpre _ (by simp)).trans (by simp)
    exact inv_t.sealBuffer_other (State.liveBuffer_eq_some.mpr ⟨hlive, hget⟩) hacc hne

theorem seal_persistent_sample :
    let s := ((system smallHost).restrict Live).after [.allocBuffer 0 200 0 true]
    let s₁ := (sealBuffer s 0 (some 0)).2
    ∃ buf, s.liveBuffer 0 = some buf ∧ (clear s₁ (some 0) 7#8).2.bytes buf = s.bytes buf := by
  intro s s₁
  have hrun : ((system smallHost).restrict Live).Reachable s := System.reachable_after (by decide +kernel)
  have hall := seal_persistent smallHost (System.steps_of_restrict hrun)
  have hstep : (system smallHost).Steps (fun s op => Live s op ∧ op.freed ≠ some 0) s₁ (clear s₁ (some 0) 7#8).2 :=
    .snoc (l := .clear (some 0) 7#8) .refl ⟨by decide +kernel, by decide⟩ rfl
  have hseal : (sealBuffer s 0 (some 0)).1 = .answer true := by decide +kernel
  obtain ⟨buf, hl, -, hbytes, -⟩ := hall.1 0 0 s₁ _ (by decide +kernel) (hseal ▸ Prod.mk.eta.symm) hstep
  exact ⟨buf, hl, hbytes⟩

end Qtx.GgmlBridge
