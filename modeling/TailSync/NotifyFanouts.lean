import TailSync.NotifyTracker
import TailSync.Runs

/-!
The fan-outs of scheduleNotify in daemon/notify.go, any number of them at once, with
the marks of onNotify between them. A batch claims its keys; each of its sessions
sends, and on success records the success and marks the batch; when all sessions are
done the claims of a batch without a success are released. While a batch is under
way each of its keys is in flight or was seen since the claim, so no other batch can
claim it, and nothing but a batch under way holds a key in flight.
-/
namespace TailSync.NotifyFanouts

open ByteStrings Entries NotifyTracker
open Runs (Run)

/-- A session's goroutine: up to the end of notifySession, between anyOK.Store and
mark, or past batchWG.Done. -/
inductive SendStage where
  | sending
  | stored
  | done
  deriving DecidableEq, Repr

structure Batch where
  toSend : List Entry
  claimedAt : Time
  sends : List SendStage
  anyOK : Bool
  finished : Bool

def Batch.keys (batch : Batch) : List ContentKey := keysOf batch.toSend

structure FanoutState (ι : Type*) where
  tracker : Tracker
  clock : Time
  batches : ι → Option Batch

def FanoutState.fresh (ι : Type*) (clock : Time) : FanoutState ι := ⟨.new, clock, fun _ => none⟩

inductive FanoutAction (ι : Type*) where
  | schedule (b : ι) (hints : List Entry) (sessions : ℕ)
  | deliver (b : ι) (session : ℕ)
  | fail (b : ι) (session : ℕ)
  | mark (b : ι) (session : ℕ)
  | finish (b : ι)
  | inbound (hints : List Entry)

variable {ι : Type*} [DecidableEq ι]

/-- One step at an instant. A send that fails or is cancelled ends its session. -/
inductive FanoutStep (s : FanoutState ι) : FanoutAction ι × Time → FanoutState ι → Prop
  | claimed {b : ι} {hints : List Entry} {sessions : ℕ} {now : Time} (fresh : s.batches b = none)
      (healthy : 0 < sessions) (taken : (s.tracker.claim now hints).2 ≠ []) :
      FanoutStep s (.schedule b hints sessions, now)
        ⟨(s.tracker.claim now hints).1, now, Function.update s.batches b
          (some ⟨(s.tracker.claim now hints).2, now, .replicate sessions .sending, false, false⟩)⟩
  | skipped {b : ι} {hints : List Entry} {sessions : ℕ} {now : Time} (healthy : 0 < sessions)
      (nothing : (s.tracker.claim now hints).2 = []) :
      FanoutStep s (.schedule b hints sessions, now)
        ⟨(s.tracker.claim now hints).1, now, s.batches⟩
  | delivered {b : ι} {i : ℕ} {now : Time} {batch : Batch} (running : s.batches b = some batch)
      (sending : batch.sends[i]? = some .sending) :
      FanoutStep s (.deliver b i, now)
        ⟨s.tracker, now, Function.update s.batches b
          (some { batch with sends := batch.sends.set i .stored, anyOK := true })⟩
  | failed {b : ι} {i : ℕ} {now : Time} {batch : Batch} (running : s.batches b = some batch)
      (sending : batch.sends[i]? = some .sending) :
      FanoutStep s (.fail b i, now)
        ⟨s.tracker, now, Function.update s.batches b
          (some { batch with sends := batch.sends.set i .done })⟩
  | marked {b : ι} {i : ℕ} {now : Time} {batch : Batch} (running : s.batches b = some batch)
      (stored : batch.sends[i]? = some .stored) :
      FanoutStep s (.mark b i, now)
        ⟨s.tracker.mark now batch.toSend, now, Function.update s.batches b
          (some { batch with sends := batch.sends.set i .done })⟩
  | finished {b : ι} {now : Time} {batch : Batch} (running : s.batches b = some batch)
      (waited : ∀ stage ∈ batch.sends, stage = .done) (first : batch.finished = false) :
      FanoutStep s (.finish b, now)
        ⟨if batch.anyOK then s.tracker else s.tracker.release batch.toSend, now,
          Function.update s.batches b (some { batch with finished := true })⟩
  | inbound {hints : List Entry} {now : Time} :
      FanoutStep s (.inbound hints, now) ⟨s.tracker.mark now hints, now, s.batches⟩

/-- The clock does not go back, and no batch takes longer than the tracker remembers. -/
structure OnTime (s : FanoutState ι) (now : Time) : Prop where
  clock : s.clock ≤ now
  batches : ∀ b batch, s.batches b = some batch → batch.finished = false →
    now ≤ batch.claimedAt + notifySeenTTL

def TimedStep (s : FanoutState ι) (a : FanoutAction ι × Time) (s' : FanoutState ι) : Prop :=
  FanoutStep s a s' ∧ OnTime s a.2

/-- A key a batch under way relies on: in flight, or seen since the claim. -/
def Held (t : Tracker) (claimedAt : Time) (k : ContentKey) : Prop :=
  t.inflight k = true ∨ ∃ stamp, t.seen k = some stamp ∧ claimedAt ≤ stamp

section Held
variable {t : Tracker} {claimedAt now : Time} {k : ContentKey} {hints : List Entry}

omit [DecidableEq ι]

theorem Held.not_claimed (h : Held t claimedAt k) (htime : now ≤ claimedAt + notifySeenTTL) :
    k ∉ keysOf (t.claim now hints).2 := by
  intro hk
  obtain ⟨hold, hflight⟩ := claim_free hk
  rcases h with h | ⟨stamp, hseen, hle⟩
  · simp [h] at hflight
  · have hlt := hold stamp hseen
    linarith

theorem Held.claim (h : Held t claimedAt k) (htime : now ≤ claimedAt + notifySeenTTL) :
    Held (t.claim now hints).1 claimedAt k := by
  rcases h with h | ⟨stamp, hseen, hle⟩
  · exact Or.inl ((claim_inflight t now hints k).mpr (Or.inl h))
  · exact Or.inr ⟨stamp, claim_seen_recent hseen (by linarith), hle⟩

theorem Held.mark (h : Held t claimedAt k) (hclock : claimedAt ≤ now)
    (htime : now ≤ claimedAt + notifySeenTTL) : Held (t.mark now hints) claimedAt k := by
  by_cases hk : k ∈ keysOf hints
  · exact Or.inr ⟨now, mark_seen_of_mem hk, hclock⟩
  · rcases h with h | ⟨stamp, hseen, hle⟩
    · exact Or.inl ((mark_inflight t now hints k).mpr ⟨h, hk⟩)
    · rcases mark_seen_recent hseen (by linarith : now - stamp ≤ _) hints with h | h
      · exact Or.inr ⟨stamp, h, hle⟩
      · exact Or.inr ⟨now, h, hclock⟩

theorem Held.release (h : Held t claimedAt k) (hk : k ∉ keysOf hints) :
    Held (t.release hints) claimedAt k := by
  rcases h with h | ⟨stamp, hseen, hle⟩
  · exact Or.inl ((release_inflight t hints k).mpr ⟨h, hk⟩)
  · exact Or.inr ⟨stamp, by rw [release_seen]; exact hseen, hle⟩

end Held

structure Sound (s : FanoutState ι) : Prop where
  past : ∀ b batch, s.batches b = some batch → batch.claimedAt ≤ s.clock
  nodup : ∀ b batch, s.batches b = some batch → batch.keys.Nodup
  held : ∀ b batch, s.batches b = some batch → batch.finished = false →
    ∀ k ∈ batch.keys, Held s.tracker batch.claimedAt k
  apart : ∀ b batch b' batch', s.batches b = some batch → s.batches b' = some batch' →
    batch.finished = false → batch'.finished = false →
    ∀ k, k ∈ batch.keys → k ∈ batch'.keys → b = b'
  owned : ∀ k, s.tracker.inflight k = true →
    ∃ b batch, s.batches b = some batch ∧ batch.finished = false ∧ k ∈ batch.keys
  confirmed : ∀ b batch, s.batches b = some batch → batch.finished = false →
    batch.anyOK = true → .stored ∈ batch.sends ∨ ∀ k ∈ batch.keys, s.tracker.inflight k = false

theorem update_some {f : ι → Option Batch} {b b' : ι} {x y : Batch}
    (h : Function.update f b (some x) b' = some y) :
    (b' = b ∧ y = x) ∨ (b' ≠ b ∧ f b' = some y) := by
  by_cases hb : b' = b
  · subst hb
    simp only [Function.update_self, Option.some.injEq] at h
    exact Or.inl ⟨rfl, h.symm⟩
  · rw [Function.update_of_ne hb] at h
    exact Or.inr ⟨hb, h⟩

omit [DecidableEq ι] in
/-- Keys that nothing puts in flight stay out of it. -/
theorem still_out {t t' : Tracker} {keys : List ContentKey}
    (hback : ∀ k ∈ keys, t'.inflight k = true → t.inflight k = true)
    (hout : ∀ k ∈ keys, t.inflight k = false) : ∀ k ∈ keys, t'.inflight k = false := by
  intro k hk
  by_contra hflight
  have hbefore := hback k hk (by simpa using hflight)
  simp [hout k hk] at hbefore

section Steps
variable {s : FanoutState ι} {now : Time}

/-- A batch makes progress, with the tracker as it is. -/
theorem Sound.progress (h : Sound s) (hclock : s.clock ≤ now) {b : ι} {batch batch' : Batch}
    (hrunning : s.batches b = some batch) (hkeys : batch'.toSend = batch.toSend)
    (hclaimed : batch'.claimedAt = batch.claimedAt) (hfinished : batch'.finished = batch.finished)
    (hconfirmed : batch'.finished = false → batch'.anyOK = true →
      .stored ∈ batch'.sends ∨ ∀ k ∈ batch.keys, s.tracker.inflight k = false) :
    Sound ⟨s.tracker, now, Function.update s.batches b (some batch')⟩ := by
  have hsame : batch'.keys = batch.keys := by rw [Batch.keys, hkeys, Batch.keys]
  -- Up to its progress a batch is one that was there before.
  have hback : ∀ c x, Function.update s.batches b (some batch') c = some x →
      ∃ y, s.batches c = some y ∧ x.keys = y.keys ∧ x.claimedAt = y.claimedAt ∧
        x.finished = y.finished := by
    intro c x hx
    rcases update_some hx with ⟨rfl, rfl⟩ | ⟨_, hx⟩
    · exact ⟨batch, hrunning, hsame, hclaimed, hfinished⟩
    · exact ⟨x, hx, rfl, rfl, rfl⟩
  refine ⟨?_, ?_, ?_, ?_, ?_, ?_⟩
  · intro c x hx
    obtain ⟨y, hy, _, hat, _⟩ := hback c x hx
    rw [hat]
    exact (h.past c y hy).trans hclock
  · intro c x hx
    obtain ⟨y, hy, hk, _, _⟩ := hback c x hx
    rw [hk]
    exact h.nodup c y hy
  · intro c x hx hopen k hk
    obtain ⟨y, hy, hkeys', hat, hfin⟩ := hback c x hx
    rw [hkeys'] at hk
    rw [hat]
    exact h.held c y hy (hfin ▸ hopen) k hk
  · intro c x c' x' hx hx' hopen hopen' k hk hk'
    obtain ⟨y, hy, hkeys', _, hfin⟩ := hback c x hx
    obtain ⟨y', hy', hkeys'', _, hfin'⟩ := hback c' x' hx'
    rw [hkeys'] at hk
    rw [hkeys''] at hk'
    exact h.apart c y c' y' hy hy' (hfin ▸ hopen) (hfin' ▸ hopen') k hk hk'
  · intro k hk
    obtain ⟨c, y, hy, hopen, hmem⟩ := h.owned k hk
    by_cases hc : c = b
    · subst hc
      rw [hrunning] at hy
      cases hy
      exact ⟨c, batch', by simp, by rw [hfinished, hopen], by rw [hsame]; exact hmem⟩
    · exact ⟨c, y, (Function.update_of_ne hc _ _).trans hy, hopen, hmem⟩
  · intro c x hx hopen hok
    rcases update_some hx with ⟨rfl, rfl⟩ | ⟨_, hx⟩
    · rw [hsame]
      exact hconfirmed hopen hok
    · exact h.confirmed c x hx hopen hok

omit [DecidableEq ι] in
/-- Marks of a session or of an inbound notify. -/
theorem Sound.mark (h : Sound s) (htime : OnTime s now) (hints : List Entry) :
    Sound ⟨s.tracker.mark now hints, now, s.batches⟩ := by
  refine ⟨?_, h.nodup, ?_, h.apart, ?_, ?_⟩
  · intro b batch hb
    exact (h.past b batch hb).trans htime.clock
  · intro b batch hb hopen k hk
    exact (h.held b batch hb hopen k hk).mark ((h.past b batch hb).trans htime.clock)
      (htime.batches b batch hb hopen)
  · intro k hk
    exact h.owned k ((mark_inflight s.tracker now hints k).mp hk).1
  · intro b batch hb hopen hok
    refine (h.confirmed b batch hb hopen hok).imp_right (still_out ?_)
    intro k _ hk
    exact ((mark_inflight s.tracker now hints k).mp hk).1

omit [DecidableEq ι] in
/-- A claim that takes nothing. -/
theorem Sound.claim_nothing (h : Sound s) (htime : OnTime s now) {hints : List Entry}
    (hnothing : (s.tracker.claim now hints).2 = []) :
    Sound ⟨(s.tracker.claim now hints).1, now, s.batches⟩ := by
  have hflight : ∀ k, (s.tracker.claim now hints).1.inflight k = s.tracker.inflight k := by
    intro k
    rw [Bool.eq_iff_iff, claim_inflight, hnothing]
    simp [keysOf]
  refine ⟨?_, h.nodup, ?_, h.apart, ?_, ?_⟩
  · intro b batch hb
    exact (h.past b batch hb).trans htime.clock
  · intro b batch hb hopen k hk
    exact (h.held b batch hb hopen k hk).claim (htime.batches b batch hb hopen)
  · intro k hk
    exact h.owned k (by rwa [← hflight])
  · intro b batch hb hopen hok
    refine (h.confirmed b batch hb hopen hok).imp_right (still_out ?_)
    intro k _ hk
    rwa [← hflight]

/-- A claim that starts a batch: its keys are those of no batch under way. -/
theorem Sound.claim (h : Sound s) (htime : OnTime s now) {b : ι} {hints : List Entry}
    {sends : List SendStage} (hfresh : s.batches b = none) :
    Sound ⟨(s.tracker.claim now hints).1, now, Function.update s.batches b
      (some ⟨(s.tracker.claim now hints).2, now, sends, false, false⟩)⟩ := by
  have hnew : ∀ c batch, s.batches c = some batch → batch.finished = false →
      ∀ k ∈ batch.keys, k ∉ keysOf (s.tracker.claim now hints).2 := by
    intro c batch hc hopen k hk
    exact (h.held c batch hc hopen k hk).not_claimed (htime.batches c batch hc hopen)
  refine ⟨?_, ?_, ?_, ?_, ?_, ?_⟩
  · intro c batch hc
    rcases update_some hc with ⟨_, rfl⟩ | ⟨_, hc⟩
    · exact le_refl _
    · exact (h.past c batch hc).trans htime.clock
  · intro c batch hc
    rcases update_some hc with ⟨_, rfl⟩ | ⟨_, hc⟩
    · exact claim_nodup s.tracker now hints
    · exact h.nodup c batch hc
  · intro c batch hc hopen k hk
    rcases update_some hc with ⟨_, rfl⟩ | ⟨_, hc⟩
    · exact Or.inl ((claim_inflight s.tracker now hints k).mpr (Or.inr hk))
    · exact (h.held c batch hc hopen k hk).claim (htime.batches c batch hc hopen)
  · intro c x c' x' hc hc' hopen hopen' k hk hk'
    rcases update_some hc with ⟨hcb, rfl⟩ | ⟨_, hold⟩
    · rcases update_some hc' with ⟨hcb', _⟩ | ⟨_, hold'⟩
      · rw [hcb, hcb']
      · exact absurd hk (hnew c' x' hold' hopen' k hk')
    · rcases update_some hc' with ⟨_, rfl⟩ | ⟨_, hold'⟩
      · exact absurd hk' (hnew c x hold hopen k hk)
      · exact h.apart c x c' x' hold hold' hopen hopen' k hk hk'
  · intro k hk
    rcases (claim_inflight s.tracker now hints k).mp hk with hk | hk
    · obtain ⟨c, batch, hc, hopen, hmem⟩ := h.owned k hk
      have hne : c ≠ b := by
        rintro rfl
        simp [hfresh] at hc
      exact ⟨c, batch, (Function.update_of_ne hne _ _).trans hc, hopen, hmem⟩
    · exact ⟨b, _, Function.update_self .., rfl, hk⟩
  · intro c batch hc hopen hok
    rcases update_some hc with ⟨_, rfl⟩ | ⟨_, hc⟩
    · simp at hok
    · refine (h.confirmed c batch hc hopen hok).imp_right (still_out ?_)
      intro k hk hflight
      refine ((claim_inflight s.tracker now hints k).mp hflight).resolve_right ?_
      exact hnew c batch hc hopen k hk

omit [DecidableEq ι] in
/-- The keys of a batch whose sessions are done are out of flight once it has
finished: marked by a session that succeeded, or released. -/
theorem Sound.settled (h : Sound s) {b : ι} {batch : Batch} (hrunning : s.batches b = some batch)
    (hwaited : ∀ stage ∈ batch.sends, stage = .done) (hopen : batch.finished = false) :
    ∀ k ∈ batch.keys,
      (if batch.anyOK then s.tracker else s.tracker.release batch.toSend).inflight k = false := by
  intro k hk
  split
  · rename_i hok
    rcases h.confirmed b batch hrunning hopen hok with hstored | hout
    · exact absurd (hwaited _ hstored) (by simp)
    · exact hout k hk
  · by_contra hflight
    exact ((release_inflight s.tracker batch.toSend k).mp (by simpa using hflight)).2 hk

theorem Sound.finish (h : Sound s) (hclock : s.clock ≤ now) {b : ι} {batch : Batch}
    (hrunning : s.batches b = some batch) (hwaited : ∀ stage ∈ batch.sends, stage = .done)
    (hopen : batch.finished = false) :
    Sound ⟨if batch.anyOK then s.tracker else s.tracker.release batch.toSend, now,
      Function.update s.batches b (some { batch with finished := true })⟩ := by
  have hsettled := h.settled hrunning hwaited hopen
  have hother : ∀ c x, c ≠ b → s.batches c = some x → x.finished = false →
      ∀ k ∈ x.keys, k ∉ batch.keys := by
    intro c x hne hc hx k hk hk'
    exact hne (h.apart c x b batch hc hrunning hx hopen k hk hk')
  have hflight : ∀ k, (if batch.anyOK then s.tracker
      else s.tracker.release batch.toSend).inflight k = true → s.tracker.inflight k = true := by
    intro k hk
    split at hk
    · exact hk
    · exact ((release_inflight s.tracker batch.toSend k).mp hk).1
  refine ⟨?_, ?_, ?_, ?_, ?_, ?_⟩
  · intro c x hc
    rcases update_some hc with ⟨_, rfl⟩ | ⟨_, hc⟩
    · exact (h.past b batch hrunning).trans hclock
    · exact (h.past c x hc).trans hclock
  · intro c x hc
    rcases update_some hc with ⟨_, rfl⟩ | ⟨_, hc⟩
    · exact h.nodup b batch hrunning
    · exact h.nodup c x hc
  · intro c x hc hx k hk
    rcases update_some hc with ⟨_, rfl⟩ | ⟨hne, hc⟩
    · simp at hx
    · have hheld := h.held c x hc hx k hk
      dsimp only
      split
      · exact hheld
      · exact hheld.release (hother c x hne hc hx k hk)
  · intro c x c' x' hc hc' hx hx' k hk hk'
    rcases update_some hc with ⟨_, rfl⟩ | ⟨_, hc⟩
    · simp at hx
    · rcases update_some hc' with ⟨_, rfl⟩ | ⟨_, hc'⟩
      · simp at hx'
      · exact h.apart c x c' x' hc hc' hx hx' k hk hk'
  · intro k hk
    obtain ⟨c, x, hc, hx, hmem⟩ := h.owned k (hflight k hk)
    have hne : c ≠ b := by
      rintro rfl
      rw [hrunning] at hc
      cases hc
      simp [hsettled k hmem] at hk
    exact ⟨c, x, (Function.update_of_ne hne _ _).trans hc, hx, hmem⟩
  · intro c x hc hx hok
    rcases update_some hc with ⟨_, rfl⟩ | ⟨_, hc⟩
    · simp at hx
    · exact (h.confirmed c x hc hx hok).imp_right (still_out fun k _ => hflight k)

private theorem mem_set_of_other {l : List SendStage} {i : ℕ} {x y z : SendStage} (hx : x ∈ l)
    (hi : l[i]? = some y) (hne : x ≠ y) : x ∈ l.set i z := by
  obtain ⟨j, hj⟩ := List.mem_iff_getElem?.mp hx
  have hij : i ≠ j := by
    rintro rfl
    exact hne (Option.some.inj (hj.symm.trans hi))
  exact List.mem_iff_getElem?.mpr ⟨j, by rw [List.getElem?_set_ne hij, hj]⟩

theorem Sound.step {s' : FanoutState ι} {a : FanoutAction ι × Time} (h : Sound s)
    (hstep : TimedStep s a s') : Sound s' := by
  obtain ⟨hstep, htime⟩ := hstep
  cases hstep with
  | claimed fresh _ _ => exact h.claim htime fresh
  | skipped _ nothing => exact h.claim_nothing htime nothing
  | delivered running sending =>
    refine h.progress htime.clock running rfl rfl rfl ?_
    intro _ _
    exact Or.inl (List.mem_set (List.getElem?_eq_some_iff.mp sending).1 .stored)
  | failed running sending =>
    refine h.progress htime.clock running rfl rfl rfl ?_
    intro hopen hok
    refine (h.confirmed _ _ running hopen hok).imp_left ?_
    intro hstored
    exact mem_set_of_other hstored sending (by simp)
  | @marked b i now batch running _ =>
    refine (h.mark htime batch.toSend).progress (le_refl now) running rfl rfl rfl ?_
    intro _ _
    right
    intro k hk
    by_contra hflight
    exact ((mark_inflight s.tracker now batch.toSend k).mp (by simpa using hflight)).2 hk
  | finished running waited first => exact h.finish htime.clock running waited first
  | inbound => exact h.mark htime _

omit [DecidableEq ι] in
theorem sound_fresh (clock : Time) : Sound (FanoutState.fresh ι clock) := by
  refine ⟨?_, ?_, ?_, ?_, ?_, ?_⟩ <;> simp [FanoutState.fresh, Tracker.new]

theorem Sound.run {as : List (FanoutAction ι × Time)} {clock : Time}
    (hrun : Run TimedStep (.fresh ι clock) as s) : Sound s :=
  hrun.invariant (fun _ _ _ h hstep => h.step hstep) (sound_fresh clock)

end Steps

def Marks (s : FanoutState ι) : FanoutAction ι → ContentKey → Prop
  | .mark b _, k => ∃ batch, s.batches b = some batch ∧ k ∈ batch.keys
  | .inbound hints, k => k ∈ keysOf hints
  | _, _ => False

/-- A key marked at an instant is remembered, or the instant is too long ago. -/
def MarkedSince (t : Time) (k : ContentKey) (s : FanoutState ι) : Prop :=
  t ≤ s.clock ∧ (t + notifySeenTTL < s.clock ∨ ∃ stamp, s.tracker.seen k = some stamp ∧ t ≤ stamp)

section Marked
variable {s s' : FanoutState ι} {a : FanoutAction ι × Time} {t : Time} {k : ContentKey}

theorem FanoutStep.clock (hstep : FanoutStep s a s') : s'.clock = a.2 := by
  cases hstep <;> rfl

/-- A stamp within the time to live stays or is renewed. -/
theorem FanoutStep.seen (hstep : FanoutStep s a s') {stamp : Time}
    (hseen : s.tracker.seen k = some stamp) (hrecent : a.2 - stamp ≤ notifySeenTTL) :
    s'.tracker.seen k = some stamp ∨ s'.tracker.seen k = some a.2 := by
  cases hstep with
  | claimed => exact Or.inl (claim_seen_recent hseen hrecent)
  | skipped => exact Or.inl (claim_seen_recent hseen hrecent)
  | delivered => exact Or.inl hseen
  | failed => exact Or.inl hseen
  | marked => exact mark_seen_recent hseen hrecent _
  | finished =>
    left
    dsimp only
    split
    · exact hseen
    · rw [release_seen, hseen]
  | inbound => exact mark_seen_recent hseen hrecent _

theorem MarkedSince.step (h : MarkedSince t k s) (hstep : TimedStep s a s') :
    MarkedSince t k s' := by
  obtain ⟨hstep, htime⟩ := hstep
  obtain ⟨hpast, hseen⟩ := h
  have hnow : t ≤ a.2 := hpast.trans htime.clock
  refine ⟨by rw [hstep.clock]; exact hnow, ?_⟩
  by_cases hlate : t + notifySeenTTL < s'.clock
  · exact Or.inl hlate
  · rw [hstep.clock] at hlate
    have hclock := htime.clock
    rcases hseen with hold | ⟨stamp, hstamp, hle⟩
    · exact absurd (hold.trans_le hclock) hlate
    · rcases hstep.seen hstamp (by linarith) with h | h
      · exact Or.inr ⟨stamp, h, hle⟩
      · exact Or.inr ⟨a.2, h, hnow⟩

theorem Marks.since {a : FanoutAction ι} (hmarks : Marks s a k) (hstep : FanoutStep s (a, t) s') :
    MarkedSince t k s' := by
  refine ⟨hstep.clock.ge, Or.inr ⟨t, ?_, le_refl t⟩⟩
  cases hstep with
  | @marked b i now batch running _ =>
    obtain ⟨batch', hbatch', hk⟩ := hmarks
    rw [running] at hbatch'
    cases hbatch'
    exact mark_seen_of_mem hk
  | inbound => exact mark_seen_of_mem hmarks
  | _ => exact hmarks.elim

theorem MarkedSince.not_claimed (h : MarkedSince t k s) {b : ι} {hints : List Entry} {sessions : ℕ}
    {now : Time} (hstep : TimedStep s (.schedule b hints sessions, now) s')
    (hnow : now ≤ t + notifySeenTTL) (hfresh : s.batches b = none) {batch : Batch}
    (hbatch : s'.batches b = some batch) : k ∉ batch.keys := by
  obtain ⟨hstep, htime⟩ := hstep
  have hclock := htime.clock
  have hseen : ∃ stamp, s.tracker.seen k = some stamp ∧ t ≤ stamp := by
    rcases h.2 with hold | hseen
    · exact absurd (hold.trans_le (hclock.trans hnow)) (lt_irrefl _)
    · exact hseen
  obtain ⟨stamp, hstamp, hle⟩ := hseen
  cases hstep with
  | claimed =>
    rcases update_some hbatch with ⟨_, rfl⟩ | ⟨hne, _⟩
    · intro hk
      have hlt := (claim_free hk).1 stamp hstamp
      linarith
    · exact absurd rfl hne
  | skipped =>
    rw [hfresh] at hbatch
    cases hbatch

end Marked

/-- Fan-outs neither storm nor leak. In every run, whatever its interleaving: no key
is in two batches under way or twice in one; a key marked at an instant is in no
batch claimed until the time to live has passed; a batch that finishes leaves its
keys seen or free; and nothing but a batch under way keeps a key in flight. -/
theorem notify_fanouts_sound {clock : Time} {as : List (FanoutAction ι × Time)}
    {s : FanoutState ι} (hrun : Run TimedStep (.fresh ι clock) as s) :
    (∀ b batch b' batch' k, s.batches b = some batch → s.batches b' = some batch' →
      batch.finished = false → batch'.finished = false →
      k ∈ batch.keys → k ∈ batch'.keys → b = b') ∧
    (∀ b batch, s.batches b = some batch → batch.keys.Nodup) ∧
    (∀ a t s' bs u b hints sessions now v batch k, TimedStep s (a, t) s' → Marks s a k →
      Run TimedStep s' bs u → TimedStep u (.schedule b hints sessions, now) v →
      now ≤ t + notifySeenTTL → u.batches b = none → v.batches b = some batch →
      k ∉ batch.keys) ∧
    (∀ b now s' batch, TimedStep s (.finish b, now) s' → s'.batches b = some batch →
      ∀ k ∈ batch.keys, s'.tracker.inflight k = false ∧
        ((∃ stamp, s'.tracker.seen k = some stamp) ∨ s'.tracker.freeLocked k now = true)) ∧
    (∀ k, s.tracker.inflight k = true →
      ∃ b batch, s.batches b = some batch ∧ batch.finished = false ∧ k ∈ batch.keys) := by
  have hsound := Sound.run hrun
  refine ⟨?_, hsound.nodup, ?_, ?_, hsound.owned⟩
  · intro b batch b' batch' k hb hb' hopen hopen' hk hk'
    exact hsound.apart b batch b' batch' hb hb' hopen hopen' k hk hk'
  · intro a t s' bs u b hints sessions now v batch k hstep hmarks hafter hclaim hnow hfresh hbatch
    have hsince : MarkedSince t k u :=
      hafter.invariant (fun _ _ _ h hstep => h.step hstep) (hmarks.since hstep.1)
    exact hsince.not_claimed hclaim hnow hfresh hbatch
  · intro b now s' batch hstep hbatch k hk
    obtain ⟨hstep, -⟩ := hstep
    cases hstep with
    | finished running waited first =>
      rcases update_some hbatch with ⟨_, rfl⟩ | ⟨hne, _⟩
      · have hout := hsound.settled running waited first k hk
        exact ⟨hout, seen_or_free hout now⟩
      · exact absurd rfl hne

def announced : Entry := ⟨ascii "a", 1, 5, 0o644, ascii "h", false, 0, 9⟩

def single (t : Tracker) (clock : Time) (batch : Batch) : FanoutState Unit :=
  ⟨t, clock, fun _ => some batch⟩

theorem single_onTime {t : Tracker} {clock now : Time} {batch : Batch} (hclock : clock ≤ now)
    (hnow : now ≤ batch.claimedAt + notifySeenTTL) : OnTime (single t clock batch) now := by
  refine ⟨hclock, ?_⟩
  rintro b batch' hb -
  cases hb
  exact hnow

def claimedTracker : Tracker := (Tracker.new.claim 1 [announced]).1

/-- A batch whose only send fails: its key is in flight until it has finished. -/
theorem notify_fanout_released :
    Run TimedStep (.fresh Unit 0) [(.schedule () [announced] 1, 1), (.fail () 0, 2)]
        (single claimedTracker 2 ⟨[announced], 1, [.done], false, false⟩) ∧
      claimedTracker.inflight (contentKeyFrom announced) = true ∧
      (claimedTracker.release [announced]).inflight (contentKeyFrom announced) = false := by
  have hclaim : TimedStep (.fresh Unit 0) (.schedule () [announced] 1, 1)
      (single claimedTracker 1 ⟨[announced], 1, [.sending], false, false⟩) :=
    ⟨.claimed rfl (by decide) (by decide), by decide, by simp [FanoutState.fresh]⟩
  have hfail : TimedStep (single claimedTracker 1 ⟨[announced], 1, [.sending], false, false⟩)
      (.fail () 0, 2) (single claimedTracker 2 ⟨[announced], 1, [.done], false, false⟩) :=
    ⟨@FanoutStep.failed Unit _ _ () 0 2 ⟨[announced], 1, [.sending], false, false⟩ rfl rfl,
      single_onTime (by decide) (by decide)⟩
  have hfinish : TimedStep (single claimedTracker 2 ⟨[announced], 1, [.done], false, false⟩)
      (.finish (), 3) (single (claimedTracker.release [announced]) 3
        ⟨[announced], 1, [.done], false, true⟩) :=
    ⟨@FanoutStep.finished Unit _ _ () 3 ⟨[announced], 1, [.done], false, false⟩ rfl (by simp) rfl,
      single_onTime (by decide) (by decide)⟩
  have hrun := Run.cons hclaim (Run.single hfail)
  exact ⟨hrun, by decide, ((notify_fanouts_sound hrun).2.2.2.1 () 3 _ _ hfinish rfl _
    (by simp [Batch.keys, keysOf])).1⟩

end TailSync.NotifyFanouts
