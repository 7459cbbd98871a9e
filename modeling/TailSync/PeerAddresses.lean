import TailSync.DiscoveryDials
import TailSync.MeshTrust
import TailSync.Rosters

/-!
Under which address an accepted peer is known, and what discovery makes of it. The candidates
that the daemon gives to discovery carry no node ID, so only the address of a session keeps its
peer from being dialed. A peer that announced the port of the node itself, or none, is known
under the address that is listed for it, and is left alone while it is connected.
-/
namespace TailSync.PeerAddresses

open ByteStrings HostPorts DiscoveryDials MeshTrust Rosters
open PeerIdentity (MeshGate)
open Runs (Run)

/-- The address to dial an accepted peer back at: the host it came from, and the port that it
announced or else the node's own. -/
def dialBackAddr (remoteAddr : Bytes) (advertisedPort localDefault : ℤ) : Bytes :=
  match splitHostPort remoteAddr with
  | .error _ => []
  | .ok (host, _) =>
      if host = [] then []
      else
        let port := if advertisedPort ≤ 0 then localDefault else advertisedPort
        if port ≤ 0 then [] else joinHostPort host (itoa port)

def discoveryCandidates (peers : List Bytes) (listing : Option (List Bytes)) : List Candidate :=
  let addrs := if peers ≠ [] then peers else listing.getD []
  (addrs.filter fun a => !a.isEmpty).map fun a => ⟨a, []⟩

section Connected
variable {σ : Type*}

def Connected (addr : σ → Bytes) (r : Roster σ) (a : Bytes) : Prop :=
  ∃ id s, r.sessions id = some s ∧ r.healthy s = true ∧ addr s = a

/-- The result of ConnectedAddrs, in any order. -/
def IsConnectedAddrs (addr : σ → Bytes) (r : Roster σ) (addrs : List Bytes) : Prop :=
  ∀ a, a ∈ addrs ↔ a ≠ [] ∧ Connected addr r a

structure PassStep (addr : σ → Bytes) (concurrency : ℕ) (s : Discovery)
    (x : DiscoveryAction × Roster σ) (s' : Discovery) : Prop where
  step : DiscoveryStep concurrency s x.1 s'
  snapshot : ∀ rest addrs ids, s.loop.inPass = false → s'.loop = .passing rest addrs ids →
    IsConnectedAddrs addr x.2 addrs

end Connected

theorem joinHostPort_ne_nil (host port : Bytes) : joinHostPort host port ≠ [] := by
  unfold joinHostPort
  split <;> simp

theorem dialBackAddr_joinHostPort {host source : Bytes} {advertised own : ℤ} (hhost : Plain host)
    (hne : host ≠ []) (hsource : Plain source) (hcolon : colon ∉ source) (hown : 0 < own) :
    dialBackAddr (joinHostPort host source) advertised own =
      joinHostPort host (itoa (if advertised ≤ 0 then own else advertised)) := by
  unfold dialBackAddr
  rw [splitHostPort_joinHostPort hhost hsource hcolon]
  dsimp only
  rw [if_neg hne, if_neg (by split <;> omega)]

/-- The peer is known under the address that is listed exactly if it announced that port. -/
theorem dialBackAddr_eq_iff {host source : Bytes} {advertised own : ℤ} (hhost : Plain host)
    (hne : host ≠ []) (hsource : Plain source) (hcolon : colon ∉ source) (hown : 0 < own) :
    dialBackAddr (joinHostPort host source) advertised own = joinHostPort host (itoa own) ↔
      advertised ≤ 0 ∨ advertised = own := by
  rw [dialBackAddr_joinHostPort hhost hne hsource hcolon hown]
  constructor
  · intro h
    obtain ⟨hplain, hplain'⟩ := itoa_plain (if advertised ≤ 0 then own else advertised)
    obtain ⟨howned, howned'⟩ := itoa_plain own
    have hports := itoa_inj (joinHostPort_inj hhost hhost hplain howned hplain' howned' h).2
    by_cases hnone : advertised ≤ 0
    · exact Or.inl hnone
    · rw [if_neg hnone] at hports
      exact Or.inr hports
  · rintro (hnone | rfl)
    · rw [if_pos hnone]
    · rw [if_neg (by omega)]

/-- Without a node ID a candidate is passed over for its address alone. -/
theorem skipped_candidate {peers : List Bytes} {listing : Option (List Bytes)} {c : Candidate}
    (hc : c ∈ discoveryCandidates peers listing) (addrs ids : List Bytes) :
    skipped addrs ids c = true ↔ c.addr ∈ addrs := by
  obtain ⟨a, ha, rfl⟩ := List.mem_map.mp hc
  have hne : a.isEmpty = false := by simpa using (List.mem_filter.mp ha).2
  simp [skipped, hne]

section Passes
variable {concurrency : ℕ} {s s' : Discovery} {a : DiscoveryAction}

/-- A pass keeps the snapshot it began with. -/
theorem step_snapshot (hstep : DiscoveryStep concurrency s a s') (hpass : s.loop.inPass = true)
    {rest : List Candidate} {addrs ids : List Bytes} (hloop : s'.loop = .passing rest addrs ids) :
    ∃ before, s.loop = .passing before addrs ids := by
  cases hstep with
  | tick idle running token =>
    rw [idle] at hpass
    exact absurd hpass (by simp [Loop.inPass])
  | @consider c rest' addrs' ids' next =>
    have hsame : (DiscoveryDials.consider s c rest' addrs' ids').loop =
        .passing rest' addrs' ids' := by
      unfold DiscoveryDials.consider
      split <;> rfl
    rw [hsame] at hloop
    cases hloop
    exact ⟨_, next⟩
  | endTick finished waited => exact absurd hloop (by simp)
  | stop idle done => exact absurd hloop (by simp)
  | _ => exact ⟨rest, hloop⟩

structure LeftAlone (addr : Bytes) (s : Discovery) : Prop where
  free : addr ∉ s.book.inflight
  known : ∀ rest addrs ids, s.loop = .passing rest addrs ids → addr ∈ addrs

variable {σ : Type*} {addrOf : σ → Bytes} {addr : Bytes} {r : Roster σ}

theorem LeftAlone.step (h : LeftAlone addr s) (hne : addr ≠ []) (hconn : Connected addrOf r addr)
    (hstep : PassStep addrOf concurrency s (a, r) s') : LeftAlone addr s' := by
  constructor
  · intro hnew
    obtain ⟨c, rest, addrs, ids, hloop, rfl, hskip, _⟩ := step_claims hstep.step hnew h.free
    have hmem := h.known _ _ _ hloop
    exact absurd hskip (by simp [skipped, hmem])
  · intro rest addrs ids hloop
    cases hpass : s.loop.inPass with
    | true =>
      obtain ⟨before, hbefore⟩ := step_snapshot hstep.step hpass hloop
      exact h.known _ _ _ hbefore
    | false => exact (hstep.snapshot rest addrs ids hpass hloop addr).mpr ⟨hne, hconn⟩

theorem LeftAlone.run {xs : List (DiscoveryAction × Roster σ)} (h : LeftAlone addr s)
    (hne : addr ≠ []) (hconn : ∀ x ∈ xs, Connected addrOf x.2 addr)
    (hrun : Run (PassStep addrOf concurrency) s xs s') : LeftAlone addr s' := by
  induction hrun with
  | nil s => exact h
  | cons hstep _ ih =>
    rw [List.forall_mem_cons] at hconn
    exact ih (h.step hne hconn.1 hstep) hconn.2

/-- Between passes nothing is in flight. -/
theorem leftAlone_of_tidy (h : Tidy concurrency s) (hidle : s.loop.inPass = false) (addr : Bytes) :
    LeftAlone addr s := by
  constructor
  · rw [h.claimed, h.idle hidle]
    exact List.not_mem_nil
  · intro rest addrs ids hloop
    rw [hloop] at hidle
    exact absurd hidle (by simp [Loop.inPass])

end Passes

/-- What discovery makes of a listed peer that has been accepted from the host it is listed
with, whatever its source port. If it announced the port that it would be dialed at, or none,
no dial to it is begun in any pass as long as its session is in use. If it announced another
port, the session does not keep it from being dialed at the port of the node itself. -/
theorem accepted_peer_left_alone {σ : Type*} (addrOf : σ → Bytes) (concurrency : ℕ)
    (fold : Folding) (cfg : NetConfig) (g : MeshGate) (self p : PeerStatus)
    (listed source : Bytes) (advertised : ℤ)
    (hlisted : dialTarget fold self cfg.port g (some p) = some listed)
    (hhost : Plain (dialHost p)) (hsource : Plain source) (hcolon : colon ∉ source)
    (hport : 0 < cfg.port) (known : Bytes)
    (hknown : known = dialBackAddr (joinHostPort (dialHost p) source) advertised cfg.port) :
    (advertised ≤ 0 ∨ advertised = cfg.port →
      ∀ (as : List DiscoveryAction) (s : Discovery)
        (xs : List (DiscoveryAction × Roster σ)) (t : Discovery),
        Run (DiscoveryStep concurrency) newDiscovery as s → s.loop.inPass = false →
        Run (PassStep addrOf concurrency) s xs t → (∀ x ∈ xs, Connected addrOf x.2 known) →
        listed ∉ t.dials.map Prod.fst) ∧
    (¬ (advertised ≤ 0 ∨ advertised = cfg.port) →
      ∀ (peers : List Bytes) (listing : Option (List Bytes)) (ids : List Bytes),
        ∀ c ∈ discoveryCandidates peers listing, c.addr = listed →
          skipped [known] ids c = false) := by
  obtain ⟨hne, haddr⟩ := dialTarget_address hlisted
  have hiff : known = listed ↔ advertised ≤ 0 ∨ advertised = cfg.port := by
    rw [hknown, haddr]
    exact dialBackAddr_eq_iff hhost hne hsource hcolon hport
  constructor
  · intro hannounced as s xs t hbefore hidle hrun hconn
    obtain rfl : known = listed := hiff.mpr hannounced
    have htidy : Tidy concurrency t :=
      run_tidy (hbefore.append (hrun.map id Prod.fst fun _ _ _ h => h.step))
    have halone := (leftAlone_of_tidy (run_tidy hbefore) hidle known).run
      (haddr ▸ joinHostPort_ne_nil _ _) hconn hrun
    rw [← htidy.claimed]
    exact halone.free
  · intro hannounced peers listing ids c hc hcand
    rw [Bool.eq_false_iff, ne_eq, skipped_candidate hc, List.mem_singleton, hcand]
    exact fun heq => hannounced (hiff.mp heq.symm)

def laptopRoster : Roster Unit := ⟨fun _ => some (), fun _ => newSession⟩

theorem accepted_peer_left_alone_laptop : ∃ t,
    Run (PassStep (fun _ : Unit => ascii "100.64.0.2:47320") 1) newDiscovery
      [(.tick false, laptopRoster), (.consider, laptopRoster)] t ∧
    ascii "100.64.0.2:47320" ∉ t.dials.map Prod.fst := by
  have hconn : Connected (fun _ : Unit => ascii "100.64.0.2:47320") laptopRoster
      (ascii "100.64.0.2:47320") := ⟨[], (), rfl, rfl, rfl⟩
  have hsnapshot : IsConnectedAddrs (fun _ : Unit => ascii "100.64.0.2:47320") laptopRoster
      [ascii "100.64.0.2:47320"] := by
    intro a
    rw [List.mem_singleton]
    constructor
    · rintro rfl
      exact ⟨by decide, hconn⟩
    · rintro ⟨_, _, _, _, _, heq⟩
      exact heq.symm
  obtain ⟨t, hrun⟩ : ∃ t, Run (PassStep (fun _ : Unit => ascii "100.64.0.2:47320") 1) newDiscovery
      [(.tick false, laptopRoster), (.consider, laptopRoster)] t := by
    refine ⟨_, .cons ⟨@DiscoveryStep.tick 1 _ false [⟨ascii "100.64.0.2:47320", []⟩]
      [ascii "100.64.0.2:47320"] [] rfl rfl (by decide), ?_⟩ (.single ⟨.consider rfl, ?_⟩)⟩
    · rintro rest addrs ids _ hloop
      cases hloop
      exact hsnapshot
    · intro rest addrs ids hidle
      exact absurd hidle (by decide)
  refine ⟨t, hrun, (accepted_peer_left_alone _ 1 asciiFolding deskConfig ⟨[], 7⟩ desk laptop
    (ascii "100.64.0.2:47320") (ascii "41641") 47320 (by decide +kernel)
    ⟨by decide +kernel, by decide +kernel⟩ ⟨by decide, by decide⟩ (by decide) (by decide)
    (ascii "100.64.0.2:47320") (by decide +kernel)).1 (Or.inr rfl) [] newDiscovery _ _ (.nil _) rfl
    hrun ?_⟩
  rw [List.forall_mem_cons, List.forall_mem_singleton]
  exact ⟨hconn, hconn⟩

end TailSync.PeerAddresses
