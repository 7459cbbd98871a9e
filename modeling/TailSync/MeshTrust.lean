import TailSync.HostPorts
import TailSync.PeerIdentity
import TailSync.Runs

/-!
Who is dialed and who is let in, as daemon/net.go and daemon/meshtrust.go decide it. The
listing of a Tailscale status and the check of a Hello use one gate, compiled from what the
daemon has read of itself, so they agree on every peer. Readings that are under way may store
their gates in any order. Two nodes that let each other in are of one user without tags, or
carry the tag that the other one asks for.
-/
namespace TailSync.MeshTrust

open ByteStrings HostPorts PeerIdentity
open Runs (Run)

/-- strings.EqualFold beside strings.ToLower; the two fold case differently. -/
structure Folding extends CaseFold where
  equalFold : Bytes → Bytes → Bool

/-- The fields of ipnstate.PeerStatus that are read; the addresses as texts. -/
structure PeerStatus where
  id : Bytes
  dnsName : Bytes
  hostName : Bytes
  userID : ℤ
  shareeNode : Bool
  tags : List Bytes
  online : Bool
  tailscaleIPs : List Bytes
  deriving DecidableEq, Repr

/-- A status: the node itself, and its peers in the order in which the map is walked. -/
structure Status where
  self : Option PeerStatus
  peers : List (Option PeerStatus)
  deriving DecidableEq, Repr

def meshIdentityFromPeerStatus : Option PeerStatus → MeshIdentity
  | none => ⟨0, false, [], []⟩
  | some p => ⟨p.userID, p.shareeNode, p.tags, p.dnsName⟩

def nodeIDFromSelf : Option PeerStatus → Bytes
  | none => []
  | some self =>
      let dns := trimSuffix self.dnsName [period]
      if dns ≠ [] then dns else if self.hostName ≠ [] then self.hostName else self.id

def dialHost (p : PeerStatus) : Bytes :=
  let host := p.tailscaleIPs.head?.getD []
  if host = [] then trimSuffix p.dnsName [period] else host

def namedLikeSelf (fold : Folding) (self p : PeerStatus) : Bool :=
  let selfDNS := trimSuffix self.dnsName [period]
  let dns := trimSuffix p.dnsName [period]
  !selfDNS.isEmpty && !dns.isEmpty &&
    (fold.equalFold dns selfDNS || (fold.toLower selfDNS ++ [period]).isPrefixOf (fold.toLower dns))

def dialTarget (fold : Folding) (self : PeerStatus) (port : ℤ) (g : MeshGate) :
    Option PeerStatus → Option Bytes
  | none => none
  | some p =>
      if !p.online then none
      else if self.id ≠ [] ∧ p.id = self.id then none
      else if !g.allows fold.toCaseFold (meshIdentityFromPeerStatus (some p)) then none
      else if dialHost p = [] then none
      else if namedLikeSelf fold self p then none
      else some (joinHostPort (dialHost p) (itoa port))

def peersFromStatus (fold : Folding) (st : Option Status) (port : ℤ) (g : MeshGate) :
    List Bytes :=
  match st with
  | some ⟨some self, peers⟩ => peers.filterMap (dialTarget fold self port g)
  | _ => []

def leadsHome (fold : Folding) (hostname host : Bytes) : Bool :=
  let h := fold.toLower host
  decide (h = fold.toLower hostname) || (fold.toLower hostname ++ [period]).isPrefixOf h

def filterSelfHostname (fold : Folding) (addrs : List Bytes) (hostname : Bytes) : List Bytes :=
  if hostname = [] then addrs
  else addrs.filter fun a =>
    let host := match splitHostPort a with
      | .ok (host, _) => host
      | .error _ => a
    !leadsHome fold hostname host

inductive NetMode where
  | host
  | tsnet
  | plain
  deriving DecidableEq, Repr

structure NetConfig where
  mode : NetMode
  hostname : Bytes
  port : ℤ
  meshTag : Bytes

/-- The cached gate after a reading of the node itself, and the result. -/
def refreshMeshGateFromSelf (meshTag : Bytes) (self : Option PeerStatus) :
    Option MeshGate × Except MeshTagError MeshGate :=
  match newMeshGate (meshIdentityFromPeerStatus self) meshTag with
  | .error e => (none, .error e)
  | .ok g => (some g, .ok g)

/-- listPeers: the cached gate afterwards, and the addresses. No status stands for an error of
the local API. -/
def listPeers (fold : Folding) (cfg : NetConfig) (gate : Option MeshGate) (st : Option Status) :
    Option MeshGate × Option (List Bytes) :=
  match cfg.mode, st with
  | .plain, _ => (gate, some [])
  | _, none => (gate, none)
  | mode, some st =>
      match refreshMeshGateFromSelf cfg.meshTag st.self with
      | (gate, .error _) => (gate, none)
      | (gate, .ok g) =>
          let addrs := peersFromStatus fold (some st) cfg.port g
          (gate, some (if mode = .tsnet then filterSelfHostname fold addrs cfg.hostname else addrs))

section Listings
variable {fold : Folding} {cfg : NetConfig}

/-- A listing with a tag that is wrong for the node clears the gate. -/
theorem listPeers_misfit {e : MeshTagError} (hattached : cfg.mode ≠ .plain)
    (gate : Option MeshGate) (st : Status)
    (hgate : newMeshGate (meshIdentityFromPeerStatus st.self) cfg.meshTag = .error e) :
    listPeers fold cfg gate (some st) = (none, none) := by
  cases hmode : cfg.mode with
  | plain => exact absurd hmode hattached
  | host => simp [listPeers, refreshMeshGateFromSelf, hmode, hgate]
  | tsnet => simp [listPeers, refreshMeshGateFromSelf, hmode, hgate]

theorem listPeers_fits {g : MeshGate} (hattached : cfg.mode ≠ .plain) (gate : Option MeshGate)
    (st : Status)
    (hgate : newMeshGate (meshIdentityFromPeerStatus st.self) cfg.meshTag = .ok g) :
    listPeers fold cfg gate (some st) = (some g, some (if cfg.mode = .tsnet then
      filterSelfHostname fold (peersFromStatus fold (some st) cfg.port g) cfg.hostname
    else peersFromStatus fold (some st) cfg.port g)) := by
  cases hmode : cfg.mode with
  | plain => exact absurd hmode hattached
  | host => simp [listPeers, refreshMeshGateFromSelf, hmode, hgate]
  | tsnet => simp [listPeers, refreshMeshGateFromSelf, hmode, hgate]

end Listings

structure Member where
  identity : MeshIdentity
  meshTag : Bytes
  gate : MeshGate
  compiled : newMeshGate identity meshTag = .ok gate

/-- Neither shared in from elsewhere nor an exit node of Mullvad. -/
def Eligible (fold : CaseFold) (id : MeshIdentity) : Prop :=
  id.sharee = false ∧ isMullvadIdentity fold id.tags id.dns = false

section Gates
variable {fold : CaseFold}

/-- A compiled gate asks for a tag of the node itself, or for its user. -/
theorem Member.gate_cases (a : Member) :
    (a.identity.tags = [] ∧ a.meshTag = [] ∧ a.gate = ⟨[], a.identity.user⟩) ∨
      (a.identity.tags ≠ [] ∧ a.meshTag ≠ [] ∧ a.meshTag ∈ a.identity.tags ∧
        a.gate = ⟨a.meshTag, 0⟩) := by
  have hcompiled := a.compiled
  unfold newMeshGate checkSelfMeshTagConfig MeshIdentity.tagged at hcompiled
  by_cases htags : a.identity.tags = []
  · by_cases htag : a.meshTag = []
    · left
      simp only [htags, htag, List.isEmpty_nil, Bool.not_true, Bool.not_false, if_true, ne_eq,
        not_true_eq_false, if_false, bind, Except.bind, pure, Except.pure, Bool.false_eq_true,
        Except.ok.injEq] at hcompiled
      exact ⟨htags, htag, hcompiled.symm⟩
    · simp [htags, htag, bind, Except.bind] at hcompiled
  · right
    have hne : a.identity.tags.isEmpty = false := by simpa using htags
    by_cases htag : a.meshTag = []
    · simp [hne, htag, bind, Except.bind] at hcompiled
    · by_cases hmem : a.meshTag ∈ a.identity.tags
      · simp [hne, htag, hmem, bind, Except.bind, pure, Except.pure] at hcompiled
        exact ⟨htags, htag, hmem, hcompiled.symm⟩
      · simp [hne, htag, hmem, bind, Except.bind] at hcompiled

theorem allows_iff (g : MeshGate) (id : MeshIdentity) :
    g.allows fold id = true ↔ Eligible fold id ∧
      ((g.requireTag ≠ [] ∧ g.requireTag ∈ id.tags) ∨
        (g.requireTag = [] ∧ g.user ≠ 0 ∧ id.user = g.user)) := by
  unfold MeshGate.allows Eligible
  by_cases hsharee : id.sharee = true
  · simp [hsharee]
  · by_cases hmullvad : isMullvadIdentity fold id.tags id.dns = true
    · simp [hmullvad]
    · by_cases htag : g.requireTag = []
      · by_cases huser : g.user = 0
        · simp [hsharee, hmullvad, htag, huser]
        · simp only [hsharee, hmullvad, htag, huser]
          by_cases hid : id.user = 0
          · simp [hid, Ne.symm huser]
          · simp only [hid]
            grind
      · simp [hsharee, hmullvad, htag]

end Gates

structure SameFacts (p : PeerStatus) (n : Node) : Prop where
  name : n.name = p.dnsName
  stableID : n.stableID = p.id
  user : n.user = p.userID
  tags : n.tags = p.tags
  hostinfo : n.hostinfo = some ⟨p.hostName, p.shareeNode⟩

structure Dialable (fold : Folding) (cfg : NetConfig) (own : PeerStatus)
    (peers : List (Option PeerStatus)) (p : PeerStatus) : Prop where
  listed : some p ∈ peers
  online : p.online = true
  other : own.id = [] ∨ p.id ≠ own.id
  otherName : namedLikeSelf fold own p = false
  host : dialHost p ≠ []
  hosts : ∀ q, some q ∈ peers → Plain (dialHost q)
  alone : ∀ q, some q ∈ peers → dialHost q = dialHost p → q = p
  away : cfg.mode = .tsnet → cfg.hostname = [] ∨ leadsHome fold cfg.hostname (dialHost p) = false

structure Named (fold : Folding) (p : PeerStatus) : Prop where
  id : nodeIDFromSelf (some p) ≠ []
  canonical : canonical fold.toCaseFold (nodeIDFromSelf (some p)) ≠ []

section Agreement
variable {fold : Folding} {p : PeerStatus} {n : Node}

/-- The ID that a node takes from its own status is one of its names. -/
theorem nodeIDFromSelf_candidate (h : SameFacts p n) :
    nodeIDFromSelf (some p) ∈ candidates n := by
  have hname : trimSuffix p.dnsName [period] ∈ candidates n := by simp [candidates, h.name]
  have hstable : p.id ∈ candidates n := by simp [candidates, h.stableID]
  unfold nodeIDFromSelf
  dsimp only
  split_ifs with hdns hhost
  · exact hname
  · have hhost' : p.hostName ≠ [] := hhost
    simp [candidates, h.hostinfo, hhost']
  · exact hstable

theorem claim_own_id (h : SameFacts p n) (hnamed : Named fold p) :
    claimedMatchesWhoIs fold.toCaseFold (nodeIDFromSelf (some p)) (some n) = true := by
  rw [claimedMatchesWhoIs_iff]
  refine ⟨hnamed.id, canonical fold.toCaseFold (nodeIDFromSelf (some p)), ?_, Or.inl rfl⟩
  unfold names
  rw [List.mem_filter]
  exact ⟨List.mem_map_of_mem (nodeIDFromSelf_candidate h), by simpa using hnamed.canonical⟩

/-- The Hello of a peer under its own ID is accepted exactly if the gate allows it. -/
theorem verify_own_id {api : LocalAPI} {g : MeshGate} {addr : Bytes} (h : SameFacts p n)
    (hnamed : Named fold p) (hconnected : api.connected = true)
    (hwho : api.whoIs addr = some (some n)) (hgate : meshGateForHello api = .ok g) :
    verifyPeerNodeID fold.toCaseFold api addr (nodeIDFromSelf (some p)) = .ok () ↔
      g.allows fold.toCaseFold (meshIdentityFromPeerStatus (some p)) = true := by
  have hpid : meshIdentityFromWhoIs (some n) =
      some (meshIdentityFromPeerStatus (some p)) := by
    simp [meshIdentityFromWhoIs, meshIdentityFromPeerStatus, h.hostinfo, h.user, h.tags, h.name]
  unfold verifyPeerNodeID
  rw [hconnected, hwho]
  simp only [Bool.not_true, Bool.false_eq_true, if_false, claim_own_id h hnamed, hgate, hpid]
  split <;> simp_all

theorem dialTarget_isSome {cfg : NetConfig} {self : PeerStatus} {peers : List (Option PeerStatus)}
    {g : MeshGate} (hp : Dialable fold cfg self peers p) :
    (dialTarget fold self cfg.port g (some p)).isSome ↔
      g.allows fold.toCaseFold (meshIdentityFromPeerStatus (some p)) = true := by
  have hnot : ¬ (self.id ≠ [] ∧ p.id = self.id) := by
    rintro ⟨hid, heq⟩
    rcases hp.other with hnil | hne
    · exact hid hnil
    · exact hne heq
  simp only [dialTarget, hp.online, hp.otherName, hp.host, Bool.not_true, Bool.false_eq_true,
    if_false]
  rw [if_neg hnot]
  split <;> simp_all

theorem dialTarget_address {self : PeerStatus} {port : ℤ} {g : MeshGate} {a : Bytes}
    (h : dialTarget fold self port g (some p) = some a) :
    dialHost p ≠ [] ∧ a = joinHostPort (dialHost p) (itoa port) := by
  unfold dialTarget at h
  dsimp only at h
  split_ifs at h with _ _ _ hhost
  exact ⟨hhost, (Option.some.inj h).symm⟩

/-- The address of a peer leads to that peer alone, so it is listed exactly if the gate allows
the peer. -/
theorem mem_peersFromStatus {cfg : NetConfig} {self : PeerStatus}
    {peers : List (Option PeerStatus)} {g : MeshGate} (hp : Dialable fold cfg self peers p) :
    joinHostPort (dialHost p) (itoa cfg.port) ∈
        peersFromStatus fold (some ⟨some self, peers⟩) cfg.port g ↔
      g.allows fold.toCaseFold (meshIdentityFromPeerStatus (some p)) = true := by
  rw [← dialTarget_isSome hp]
  constructor
  · intro hmem
    obtain ⟨q, hq, htarget⟩ := List.mem_filterMap.mp hmem
    cases q with
    | none => exact absurd htarget (by simp [dialTarget])
    | some q =>
      have hport := itoa_plain cfg.port
      have hsame := (joinHostPort_inj (hp.hosts p hp.listed) (hp.hosts q hq) hport.1 hport.1
        hport.2 hport.2 (dialTarget_address htarget).2).1
      have hqp : q = p := hp.alone q hq hsame.symm
      rw [← hqp, htarget]
      rfl
  · intro hsome
    obtain ⟨a, ha⟩ := Option.isSome_iff_exists.mp hsome
    rw [← (dialTarget_address ha).2]
    exact List.mem_filterMap.mpr ⟨some p, hp.listed, ha⟩

theorem mem_filterSelfHostname {host hostname : Bytes} {port : ℤ} {addrs : List Bytes}
    (hhost : Plain host) (haway : hostname = [] ∨ leadsHome fold hostname host = false) :
    joinHostPort host (itoa port) ∈ filterSelfHostname fold addrs hostname ↔
      joinHostPort host (itoa port) ∈ addrs := by
  unfold filterSelfHostname
  split_ifs with hnil
  · rfl
  · have hport := itoa_plain port
    have hleads := haway.resolve_left hnil
    rw [List.mem_filter, splitHostPort_joinHostPort hhost hport.1 hport.2]
    simp [hleads]

/-- What a listing that succeeds has stored and found. -/
theorem listPeers_found {cfg : NetConfig} {gate gate' : Option MeshGate} {self : PeerStatus}
    {peers : List (Option PeerStatus)} {addrs : List Bytes} (hattached : cfg.mode ≠ .plain)
    (hlist : listPeers fold cfg gate (some ⟨some self, peers⟩) = (gate', some addrs))
    (hp : Dialable fold cfg self peers p) :
    ∃ g, gate' = some g ∧ (joinHostPort (dialHost p) (itoa cfg.port) ∈ addrs ↔
      g.allows fold.toCaseFold (meshIdentityFromPeerStatus (some p)) = true) := by
  cases hgate : newMeshGate (meshIdentityFromPeerStatus (some self)) cfg.meshTag with
  | error e =>
    rw [listPeers_misfit hattached gate ⟨some self, peers⟩ hgate] at hlist
    exact absurd (congrArg Prod.snd hlist) (by simp)
  | ok g =>
    rw [listPeers_fits hattached gate ⟨some self, peers⟩ hgate] at hlist
    obtain ⟨hstored, hfound⟩ := Prod.mk.inj hlist
    refine ⟨g, hstored.symm, ?_⟩
    rw [← mem_peersFromStatus hp, ← Option.some.inj hfound]
    split_ifs with hmode
    · exact mem_filterSelfHostname (hp.hosts p hp.listed) (hp.away hmode)
    · rfl

end Agreement

/-- Discovery and the Hello agree, with the host's Tailscale and with an embedded one. After a
listing, the address of a peer that can be dialed is among those found exactly if the peer's
Hello, under the ID it takes from its own status, will be accepted, as long as WhoIs has the
same facts of it. -/
theorem discovery_agrees_with_hello (fold : Folding) (cfg : NetConfig)
    (gate gate' : Option MeshGate) (self p : PeerStatus) (peers : List (Option PeerStatus))
    (addrs : List Bytes) (n : Node) (api : LocalAPI) (addr : Bytes)
    (hattached : cfg.mode ≠ .plain)
    (hlist : listPeers fold cfg gate (some ⟨some self, peers⟩) = (gate', some addrs))
    (hp : Dialable fold cfg self peers p) (hnamed : Named fold p) (hfacts : SameFacts p n)
    (hconnected : api.connected = true) (hwho : api.whoIs addr = some (some n))
    (hcached : api.cachedGate = gate') :
    joinHostPort (dialHost p) (itoa cfg.port) ∈ addrs ↔
      verifyPeerNodeID fold.toCaseFold api addr (nodeIDFromSelf (some p)) = .ok () := by
  obtain ⟨g, hgate, hfound⟩ := listPeers_found hattached hlist hp
  have hhello : meshGateForHello api = .ok g := by
    unfold meshGateForHello
    rw [hcached, hgate]
  rw [hfound, verify_own_id hfacts hnamed hconnected hwho hhello]

def machine (id name : String) (ip : String) : PeerStatus :=
  ⟨ascii id, ascii (name ++ ".tail.ts.net."), ascii name, 7, false, [], true, [ascii ip]⟩

def desk : PeerStatus := machine "n1" "desk" "100.64.0.1"
def laptop : PeerStatus := machine "n2" "laptop" "100.64.0.2"

def laptopNode : Node := tailnetNode "laptop.tail.ts.net." "n2" "laptop"

def deskConfig : NetConfig := ⟨.host, ascii "desk", 47320, []⟩

def asciiFolding : Folding where
  toCaseFold := asciiFold
  equalFold a b := decide (asciiFold.toLower a = asciiFold.toLower b)

def deskAPI (gate : Option MeshGate) : LocalAPI where
  connected := true
  whoIs _ := some (some laptopNode)
  self := none
  cachedGate := gate
  meshTag := []

theorem discovery_agrees_with_hello_laptop :
    verifyPeerNodeID asciiFold (deskAPI (some ⟨[], 7⟩)) (ascii "100.64.0.2:47320")
      (nodeIDFromSelf (some laptop)) = .ok () := by
  have hlisted : listPeers asciiFolding deskConfig none (some ⟨some desk, [some laptop]⟩) =
      (some ⟨[], 7⟩, some [ascii "100.64.0.2:47320"]) := by decide +kernel
  have hdialable : Dialable asciiFolding deskConfig desk [some laptop] laptop := by
    refine ⟨by simp, rfl, Or.inr (by decide), by decide +kernel, by decide, ?_, ?_, ?_⟩
    · intro q hq
      obtain rfl : q = laptop := by simpa using hq
      exact ⟨by decide +kernel, by decide +kernel⟩
    · intro q hq _
      simpa using hq
    · intro hmode
      cases hmode
  refine (discovery_agrees_with_hello asciiFolding deskConfig none (some ⟨[], 7⟩) desk laptop
    [some laptop] [ascii "100.64.0.2:47320"] laptopNode (deskAPI (some ⟨[], 7⟩)) _ (by decide)
    hlisted hdialable ⟨by decide +kernel, by decide +kernel⟩ ⟨rfl, rfl, rfl, rfl, rfl⟩
    rfl rfl rfl).mp ?_
  decide +kernel

/-- The cached gate, whether the mesh is up, and the readings of the node itself that are under
way: that of the one listing, and those of Hellos that found no gate. What has been read so
far, and what was last stored when the mesh came up or by a listing, is kept as well. -/
structure Net where
  listening : Bool
  gate : Option MeshGate
  listing : Option Status
  hellos : List MeshIdentity
  read : List MeshIdentity
  listed : Option MeshIdentity

def Net.down : Net := ⟨false, none, none, [], [], none⟩

inductive NetEvent where
  | listen (self : Option PeerStatus)
  | listFails
  | listRead (st : Status)
  | listStore (st : Status)
  | helloRead (self : MeshIdentity)
  | helloStore (self : MeshIdentity)
  | helloMisfit (self : MeshIdentity)
  | close

/-- One access to the cached gate, or one reading. Discovery lists peers one listing at a time,
Hellos come in while it does, and the gate is cleared when nothing is under way any more. -/
inductive NetStep (fold : Folding) (cfg : NetConfig) (s : Net) : NetEvent → Net → Prop
  | listen {self : Option PeerStatus} {g : MeshGate} (down : s.listening = false)
      (attached : cfg.mode ≠ .plain)
      (fits : newMeshGate (meshIdentityFromPeerStatus self) cfg.meshTag = .ok g) :
      NetStep fold cfg s (.listen self)
        { s with
          listening := true
          gate := some g
          read := meshIdentityFromPeerStatus self :: s.read
          listed := some (meshIdentityFromPeerStatus self) }
  | listFails (up : s.listening = true) :
      NetStep fold cfg s .listFails { s with gate := (listPeers fold cfg s.gate none).1 }
  | listRead {st : Status} (up : s.listening = true) (first : s.listing = none) :
      NetStep fold cfg s (.listRead st)
        { s with listing := some st, read := meshIdentityFromPeerStatus st.self :: s.read }
  | listStore {st : Status} (attached : cfg.mode ≠ .plain) (reading : s.listing = some st) :
      NetStep fold cfg s (.listStore st)
        { s with
          listing := none
          gate := (listPeers fold cfg s.gate (some st)).1
          listed := some (meshIdentityFromPeerStatus st.self) }
  | helloRead {self : MeshIdentity} (up : s.listening = true) (uncached : s.gate = none) :
      NetStep fold cfg s (.helloRead self)
        { s with hellos := self :: s.hellos, read := self :: s.read }
  | helloStore {self : MeshIdentity} {g : MeshGate} (reading : self ∈ s.hellos)
      (fits : newMeshGate self cfg.meshTag = .ok g) :
      NetStep fold cfg s (.helloStore self)
        { s with hellos := s.hellos.erase self, gate := some g }
  | helloMisfit {self : MeshIdentity} {e : MeshTagError} (reading : self ∈ s.hellos)
      (misfit : newMeshGate self cfg.meshTag = .error e) :
      NetStep fold cfg s (.helloMisfit self) { s with hellos := s.hellos.erase self }
  | close (idle : s.listing = none) (quiet : s.hellos = []) :
      NetStep fold cfg s .close { s with listening := false, gate := none }

structure Sound (cfg : NetConfig) (s : Net) : Prop where
  gate : ∀ g, s.gate = some g → ∃ self ∈ s.read, newMeshGate self cfg.meshTag = .ok g
  listing : ∀ st, s.listing = some st → meshIdentityFromPeerStatus st.self ∈ s.read
  hellos : ∀ self ∈ s.hellos, self ∈ s.read
  listed : ∀ self, s.listed = some self → self ∈ s.read

/-- The gate of the last listing is in use, and no Hello is about to replace it. -/
structure Steady (cfg : NetConfig) (s : Net) : Prop where
  quiet : s.hellos = []
  current : s.listening = true → ∃ self g, s.listed = some self ∧ s.gate = some g ∧
    newMeshGate self cfg.meshTag = .ok g

def Fits (cfg : NetConfig) : NetEvent → Prop
  | .listStore st => ∃ g, newMeshGate (meshIdentityFromPeerStatus st.self) cfg.meshTag = .ok g
  | _ => True

section Readings
variable {fold : Folding} {cfg : NetConfig} {s s' : Net} {e : NetEvent}

theorem toOption_eq_some {ε α : Type*} {r : Except ε α} {a : α} :
    r.toOption = some a ↔ r = .ok a := by
  cases r <;> simp [Except.toOption]

/-- A listing caches the gate of its status, or none. -/
theorem listPeers_gate (hattached : cfg.mode ≠ .plain) (gate : Option MeshGate) (st : Status) :
    (listPeers fold cfg gate (some st)).1 =
      (newMeshGate (meshIdentityFromPeerStatus st.self) cfg.meshTag).toOption := by
  cases hgate : newMeshGate (meshIdentityFromPeerStatus st.self) cfg.meshTag with
  | error e =>
    rw [listPeers_misfit hattached gate st hgate]
    rfl
  | ok g =>
    rw [listPeers_fits hattached gate st hgate]
    rfl

theorem listPeers_failed (gate : Option MeshGate) : (listPeers fold cfg gate none).1 = gate := by
  unfold listPeers
  cases cfg.mode <;> rfl

theorem Sound.step (h : Sound cfg s) (hstep : NetStep fold cfg s e s') : Sound cfg s' := by
  cases hstep with
  | listen down attached fits =>
    refine ⟨?_, fun st hst => List.mem_cons_of_mem _ (h.listing st hst),
      fun self hself => List.mem_cons_of_mem _ (h.hellos self hself), ?_⟩
    · intro g hg
      cases hg
      exact ⟨_, List.mem_cons_self, fits⟩
    · intro self hself
      cases hself
      exact List.mem_cons_self
  | listFails up =>
    refine ⟨?_, h.listing, h.hellos, h.listed⟩
    intro g hg
    rw [listPeers_failed] at hg
    exact h.gate g hg
  | listRead up first =>
    refine ⟨?_, ?_, fun self hself => List.mem_cons_of_mem _ (h.hellos self hself),
      fun self hself => List.mem_cons_of_mem _ (h.listed self hself)⟩
    · intro g hg
      obtain ⟨self, hself, hnew⟩ := h.gate g hg
      exact ⟨self, List.mem_cons_of_mem _ hself, hnew⟩
    · intro st hst
      cases hst
      exact List.mem_cons_self
  | listStore attached reading =>
    refine ⟨?_, fun st hst => absurd hst (by simp), h.hellos, ?_⟩
    · intro g hg
      rw [listPeers_gate attached] at hg
      exact ⟨_, h.listing _ reading, toOption_eq_some.mp hg⟩
    · intro self hself
      cases hself
      exact h.listing _ reading
  | helloRead up uncached =>
    refine ⟨?_, fun st hst => List.mem_cons_of_mem _ (h.listing st hst), ?_,
      fun self hself => List.mem_cons_of_mem _ (h.listed self hself)⟩
    · intro g hg
      exact absurd (uncached.symm.trans hg) (by simp)
    · intro self hself
      rcases List.mem_cons.mp hself with rfl | hself
      · exact List.mem_cons_self
      · exact List.mem_cons_of_mem _ (h.hellos self hself)
  | helloStore reading fits =>
    refine ⟨?_, h.listing, fun self hself => h.hellos self (List.mem_of_mem_erase hself),
      h.listed⟩
    intro g hg
    cases hg
    exact ⟨_, h.hellos _ reading, fits⟩
  | helloMisfit reading misfit =>
    exact ⟨h.gate, h.listing, fun self hself => h.hellos self (List.mem_of_mem_erase hself),
      h.listed⟩
  | close idle quiet =>
    exact ⟨fun g hg => absurd hg (by simp), h.listing, h.hellos, h.listed⟩

theorem run_sound {es : List NetEvent} (hrun : Run (NetStep fold cfg) Net.down es s) :
    Sound cfg s := by
  refine hrun.invariant (fun _ _ _ h hstep => h.step hstep) ?_
  constructor <;> simp [Net.down]

theorem Steady.step (h : Steady cfg s) (hfits : Fits cfg e) (hstep : NetStep fold cfg s e s') :
    Steady cfg s' := by
  cases hstep with
  | listen down attached fits => exact ⟨h.quiet, fun _ => ⟨_, _, rfl, rfl, fits⟩⟩
  | listFails up =>
    refine ⟨h.quiet, fun hup => ?_⟩
    dsimp only
    rw [listPeers_failed]
    exact h.current hup
  | listRead up first => exact ⟨h.quiet, h.current⟩
  | listStore attached reading =>
    obtain ⟨g, hg⟩ := hfits
    refine ⟨h.quiet, fun _ => ⟨_, g, rfl, ?_, hg⟩⟩
    dsimp only
    rw [listPeers_gate attached]
    exact toOption_eq_some.mpr hg
  | helloRead up uncached =>
    -- with a gate in use no Hello reads the node
    obtain ⟨_, g, _, hg, _⟩ := h.current up
    exact absurd (uncached.symm.trans hg) (by simp)
  | helloStore reading fits =>
    rw [h.quiet] at reading
    exact absurd reading List.not_mem_nil
  | helloMisfit reading misfit =>
    rw [h.quiet] at reading
    exact absurd reading List.not_mem_nil
  | close idle quiet => exact ⟨quiet, fun hup => absurd hup (by simp)⟩

theorem Steady.run {es : List NetEvent} (h : Steady cfg s) (hfits : ∀ e ∈ es, Fits cfg e)
    (hrun : Run (NetStep fold cfg) s es s') : Steady cfg s' := by
  induction hrun with
  | nil s => exact h
  | cons hstep _ ih =>
    rw [List.forall_mem_cons] at hfits
    exact ih (h.step hfits.1 hstep) hfits.2

theorem steady_down : Steady cfg Net.down := ⟨rfl, fun hup => absurd hup (by simp [Net.down])⟩

/-- The gate that a Hello is judged by: the cached one, or else that of its own reading. -/
theorem meshGateForHello_ok {api : LocalAPI} {g : MeshGate} (h : meshGateForHello api = .ok g) :
    api.cachedGate = some g ∨ (api.cachedGate = none ∧ ∃ self, api.self = some (some self) ∧
      newMeshGate self api.meshTag = .ok g) := by
  unfold meshGateForHello at h
  cases hcached : api.cachedGate with
  | some g' =>
    rw [hcached] at h
    exact Or.inl (congrArg some (Except.ok.inj h))
  | none =>
    rw [hcached] at h
    dsimp only at h
    split at h
    · exact absurd h (by simp)
    · exact absurd h (by simp)
    · rename_i self hself
      refine Or.inr ⟨rfl, self, hself, ?_⟩
      cases hnew : newMeshGate self api.meshTag with
      | error e =>
        rw [hnew] at h
        exact absurd h (by simp [Except.mapError])
      | ok g' =>
        rw [hnew] at h
        cases h
        rfl

/-- A node that a compiled gate allows carries its tag, or is of its user. -/
theorem Member.allows_cases {fold : CaseFold} {a : Member} {pid : MeshIdentity}
    (h : a.gate.allows fold pid = true) : Eligible fold pid ∧
      ((a.meshTag ≠ [] ∧ a.meshTag ∈ pid.tags) ∨
        (a.meshTag = [] ∧ pid.user = a.identity.user ∧ pid.user ≠ 0)) := by
  obtain ⟨heligible, hkind⟩ := (allows_iff _ _).mp h
  refine ⟨heligible, ?_⟩
  rcases a.gate_cases with ⟨_, htag, hgate⟩ | ⟨_, htag, _, hgate⟩ <;> rw [hgate] at hkind
  · rcases hkind with ⟨hne, _⟩ | ⟨_, hne, huser⟩
    · exact absurd rfl hne
    · exact Or.inr ⟨htag, huser, huser ▸ hne⟩
  · rcases hkind with ⟨_, hmem⟩ | ⟨hnil, _⟩
    · exact Or.inl ⟨htag, hmem⟩
    · exact absurd hnil htag

end Readings

/-- Whoever is let in has earned it by what the daemon read of itself. However listings and
Hellos overlap, a Hello that is accepted is from the node that WhoIs names, and that node
carries the configured tag, or, without one, is of the user that one of the daemon's own
readings gave. The reading is the last one that was listed if no listing has found the tag to
be wrong: only then is the gate cleared, and a Hello that reads the node meanwhile may store
its gate after that of a later listing. -/
theorem hello_judged_by_own_reading (fold : Folding) (cfg : NetConfig) (es : List NetEvent)
    (s : Net) (hrun : Run (NetStep fold cfg) Net.down es s) (hup : s.listening = true)
    (api : LocalAPI) (addr claimed : Bytes) (hcached : api.cachedGate = s.gate)
    (htag : api.meshTag = cfg.meshTag)
    (haccepted : verifyPeerNodeID fold.toCaseFold api addr claimed = .ok ()) :
    ∃ n pid self, api.whoIs addr = some (some n) ∧
      claimedMatchesWhoIs fold.toCaseFold claimed (some n) = true ∧
      meshIdentityFromWhoIs (some n) = some pid ∧ Eligible fold.toCaseFold pid ∧
      ((cfg.meshTag ≠ [] ∧ cfg.meshTag ∈ pid.tags) ∨
        (cfg.meshTag = [] ∧ pid.user = self.user ∧ pid.user ≠ 0)) ∧
      (self ∈ s.read ∨ (s.gate = none ∧ api.self = some (some self))) ∧
      ((∀ e ∈ es, Fits cfg e) → s.listed = some self) := by
  obtain ⟨n, g, pid, _, hwho, hmatch, hgate, hpid, hallows⟩ := verify_ok haccepted
  -- it is enough to name the reading
  suffices hself : ∃ self, newMeshGate self cfg.meshTag = .ok g ∧
      (self ∈ s.read ∨ (s.gate = none ∧ api.self = some (some self))) ∧
      ((∀ e ∈ es, Fits cfg e) → s.listed = some self) by
    obtain ⟨self, hnew, hread, hlisted⟩ := hself
    obtain ⟨heligible, hkind⟩ := @Member.allows_cases _ ⟨self, cfg.meshTag, g, hnew⟩ pid hallows
    exact ⟨n, pid, self, hwho, hmatch, hpid, heligible, hkind, hread, hlisted⟩
  have hsteady : (∀ e ∈ es, Fits cfg e) → ∃ self g', s.listed = some self ∧ s.gate = some g' ∧
      newMeshGate self cfg.meshTag = .ok g' :=
    fun hfits => (steady_down.run hfits hrun).current hup
  rcases meshGateForHello_ok hgate with hcache | ⟨hnone, self, hself, hnew⟩
  · rw [hcached] at hcache
    by_cases hfits : ∀ e ∈ es, Fits cfg e
    · obtain ⟨self, g', hlisted, hgate', hnew⟩ := hsteady hfits
      obtain rfl : g' = g := Option.some.inj (hgate'.symm.trans hcache)
      exact ⟨self, hnew, Or.inl ((run_sound hrun).listed self hlisted), fun _ => hlisted⟩
    · obtain ⟨self, hread, hnew⟩ := (run_sound hrun).gate g hcache
      exact ⟨self, hnew, Or.inl hread, fun h => absurd h hfits⟩
  · rw [hcached] at hnone
    rw [htag] at hnew
    refine ⟨self, hnew, Or.inr ⟨hnone, hself⟩, fun hfits => ?_⟩
    obtain ⟨_, g', _, hgate', _⟩ := hsteady hfits
    exact absurd (hnone.symm.trans hgate') (by simp)

theorem hello_judged_after_listing : ∃ s self pid,
    Run (NetStep asciiFolding deskConfig) Net.down
      [.listen (some desk), .listRead ⟨some desk, []⟩, .listStore ⟨some desk, []⟩] s ∧
    s.listed = some self ∧ meshIdentityFromWhoIs (some laptopNode) = some pid ∧
    pid.user = self.user := by
  have hfits : newMeshGate (meshIdentityFromPeerStatus (some desk)) deskConfig.meshTag =
      .ok ⟨[], 7⟩ := rfl
  have hattached : deskConfig.mode ≠ .plain := by decide
  have hrun : Run (NetStep asciiFolding deskConfig) Net.down
      [.listen (some desk), .listRead ⟨some desk, []⟩, .listStore ⟨some desk, []⟩] _ :=
    .cons (.listen rfl hattached hfits) (.cons (.listRead rfl rfl) (.single (.listStore hattached
      rfl)))
  obtain ⟨n, pid, self, hwho, _, hpid, _, hkind, _, hlisted⟩ :=
    hello_judged_by_own_reading asciiFolding deskConfig _ _ hrun rfl (deskAPI (some ⟨[], 7⟩))
      (ascii "100.64.0.2:47320") (ascii "laptop") rfl rfl (by decide +kernel)
  cases hwho
  rcases hkind with ⟨htag, _⟩ | ⟨_, huser, _⟩
  · exact absurd rfl htag
  · refine ⟨_, self, pid, hrun, hlisted ?_, hpid, huser⟩
    rw [List.forall_mem_cons, List.forall_mem_cons, List.forall_mem_singleton]
    exact ⟨trivial, trivial, _, hfits⟩

def taggedDesk : PeerStatus := { desk with tags := [ascii "tag:lab"] }
def soldDesk : PeerStatus := { desk with userID := 8 }

/-- Without that condition an old gate can come back: a Hello reads the node after a listing has
cleared the gate, and stores it after the next listing. -/
theorem late_hello_restores_gate : ∃ es s, Run (NetStep asciiFolding deskConfig) Net.down es s ∧
    s.listed = some (meshIdentityFromPeerStatus (some soldDesk)) ∧ s.gate = some ⟨[], 7⟩ := by
  have hattached : deskConfig.mode ≠ .plain := by decide
  have hfits : newMeshGate (meshIdentityFromPeerStatus (some desk)) deskConfig.meshTag =
      .ok ⟨[], 7⟩ := rfl
  refine ⟨_, _, .cons (.listen rfl hattached hfits) <|
    .cons (@NetStep.listRead _ _ _ ⟨some taggedDesk, []⟩ rfl rfl) <|
    .cons (.listStore hattached rfl) <|
    .cons (.helloRead rfl ?_) <|
    .cons (@NetStep.listRead _ _ _ ⟨some soldDesk, []⟩ rfl rfl) <|
    .cons (.listStore hattached rfl) <|
    .single (.helloStore List.mem_cons_self hfits), rfl, rfl⟩
  exact listPeers_gate hattached _ _

def Mutual (fold : CaseFold) (a b : Member) : Prop :=
  a.gate.allows fold b.identity = true ∧ b.gate.allows fold a.identity = true

section Trust
variable {fold : CaseFold} {a b c : Member}

theorem mutual_iff : Mutual fold a b ↔ Eligible fold a.identity ∧ Eligible fold b.identity ∧
    ((a.identity.tags = [] ∧ b.identity.tags = [] ∧ a.identity.user = b.identity.user ∧
      a.identity.user ≠ 0) ∨
    (a.meshTag ∈ b.identity.tags ∧ b.meshTag ∈ a.identity.tags)) := by
  unfold Mutual
  rw [allows_iff, allows_iff]
  rcases a.gate_cases with ⟨ha, hta, hga⟩ | ⟨ha, hta, hmema, hga⟩ <;>
    rcases b.gate_cases with ⟨hb, htb, hgb⟩ | ⟨hb, htb, hmemb, hgb⟩ <;>
    rw [hga, hgb]
  · simp only [ha, hb, ne_eq, not_true_eq_false, true_and, false_or, List.not_mem_nil, and_false,
      or_false]
    grind
  · simp [ha, hb, htb]
  · simp [ha, hb, hta]
  · simp only [ha, hta, htb]
    grind

end Trust

/-- Two nodes let each other in exactly if both are eligible, and both are untagged and of one
user, or each carries the tag that the other is configured with; so a tagged node and an
untagged one never do, although the gate of the untagged one may allow the other. Among nodes
that are configured with the same tag, or all with none, this is transitive: they fall into
groups, in each of which all let each other in. -/
theorem mesh_trust_groups (fold : CaseFold) (a b c : Member) :
    (Mutual fold a b ↔ Eligible fold a.identity ∧ Eligible fold b.identity ∧
      ((a.identity.tags = [] ∧ b.identity.tags = [] ∧ a.identity.user = b.identity.user ∧
        a.identity.user ≠ 0) ∨
      (a.meshTag ∈ b.identity.tags ∧ b.meshTag ∈ a.identity.tags))) ∧
    (a.meshTag = b.meshTag → b.meshTag = c.meshTag → Mutual fold a b → Mutual fold b c →
      Mutual fold a c) := by
  refine ⟨mutual_iff, ?_⟩
  intro hab hbc hmutual hmutual'
  obtain ⟨ha, _, hkind⟩ := mutual_iff.mp hmutual
  obtain ⟨_, hc, hkind'⟩ := mutual_iff.mp hmutual'
  refine mutual_iff.mpr ⟨ha, hc, ?_⟩
  rcases hkind with ⟨htags, htags', huser, hne⟩ | ⟨_, hmem⟩
  · rcases hkind' with ⟨_, htags'', huser', _⟩ | ⟨_, hmem'⟩
    · exact Or.inl ⟨htags, htags'', huser.trans huser', hne⟩
    · rw [htags'] at hmem'
      exact absurd hmem' (by simp)
  · rcases hkind' with ⟨htags, _⟩ | ⟨hmem', _⟩
    · -- an untagged node has no tag to ask for
      rcases b.gate_cases with ⟨_, htag, _⟩ | ⟨hne, _⟩
      · rcases a.gate_cases with ⟨htags', _⟩ | ⟨_, hne, _⟩
        · rw [htags'] at hmem
          exact absurd hmem (by simp)
        · exact absurd (hab.trans htag) hne
      · exact absurd htags hne
    · exact Or.inr ⟨hab ▸ hmem', hbc ▸ hmem⟩

def ofUser (p : PeerStatus) (huser : newMeshGate (meshIdentityFromPeerStatus (some p)) [] =
    .ok ⟨[], 7⟩) : Member :=
  ⟨meshIdentityFromPeerStatus (some p), [], ⟨[], 7⟩, huser⟩

def deskMember : Member := ofUser desk rfl
def laptopMember : Member := ofUser laptop rfl
def nasMember : Member := ofUser (machine "n3" "nas" "100.64.0.3") rfl

theorem mesh_trust_groups_one_user : Mutual asciiFold deskMember nasMember := by
  have hdesk : deskMember.gate.allows asciiFold laptopMember.identity = true := by decide +kernel
  have hlaptop : laptopMember.gate.allows asciiFold deskMember.identity = true := by
    decide +kernel
  have hnas : laptopMember.gate.allows asciiFold nasMember.identity = true := by decide +kernel
  have hback : nasMember.gate.allows asciiFold laptopMember.identity = true := by decide +kernel
  have htag : laptopMember.meshTag = [] := rfl
  exact (mesh_trust_groups asciiFold deskMember laptopMember nasMember).2 htag.symm htag
    ⟨hdesk, hlaptop⟩ ⟨hnas, hback⟩

end TailSync.MeshTrust
