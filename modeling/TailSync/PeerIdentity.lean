import TailSync.ByteStrings
import Mathlib.Data.List.TakeWhile

/-!
Who may take a node ID, as daemon/net.go and daemon/meshtrust.go decide it. A claimed
Hello node ID is compared with the names that Tailscale knows for the peer: its MagicDNS
name, its stable ID, the host name it reports itself and its computed name, without a
trailing dot and regardless of case. A claim also matches a name that continues it with
a dot. So two nodes can take one ID exactly when a name of one and a name of the other
have the same first label.
-/
namespace TailSync.PeerIdentity

open ByteStrings

def period : UInt8 := 46

/-- strings.ToLower. It maps the characters one by one, a dot to itself and nothing else to
a dot, and maps nothing a second time. -/
structure CaseFold where
  toLower : Bytes → Bytes
  idem : ∀ s, toLower (toLower s) = toLower s
  split : ∀ a b, toLower (a ++ period :: b) = toLower a ++ period :: toLower b
  dotless : ∀ s, period ∉ s → period ∉ toLower s

def trimSuffix (s suffix : Bytes) : Bytes :=
  if suffix.isSuffixOf s then s.take (s.length - suffix.length) else s

structure Hostinfo where
  hostname : Bytes
  shareeNode : Bool
  deriving DecidableEq, Repr

/-- The fields of tailcfg.Node that are read; no Hostinfo stands for one that is not valid. -/
structure Node where
  name : Bytes
  stableID : Bytes
  hostinfo : Option Hostinfo
  computedName : Bytes
  user : ℤ
  tags : List Bytes
  deriving DecidableEq, Repr

/-- The name without a trailing dot, in lower case. -/
def canonical (fold : CaseFold) (s : Bytes) : Bytes := fold.toLower (trimSuffix s [period])

def candidates (n : Node) : List Bytes :=
  [trimSuffix n.name [period], n.stableID] ++
    (match n.hostinfo with
      | some hi => if hi.hostname = [] then [] else [hi.hostname]
      | none => []) ++
    if n.computedName = [] then [] else [n.computedName]

/-- claimedMatchesWhoIs; no node stands for an empty response. -/
def claimedMatchesWhoIs (fold : CaseFold) (claimed : Bytes) (who : Option Node) : Bool :=
  match who with
  | none => false
  | some n =>
      if claimed = [] then false
      else
        let want := canonical fold claimed
        (candidates n).any fun name =>
          let c := canonical fold name
          if c = [] then false else decide (c = want) || (want ++ [period]).isPrefixOf c

def mullvadExitNodeTag : Bytes := ascii "tag:mullvad-exit-node"

def mullvadDNSSuffix : Bytes := ascii "mullvad.ts.net"

def isMullvadDNSName (fold : CaseFold) (dns : Bytes) : Bool :=
  decide (canonical fold dns = mullvadDNSSuffix) ||
    (period :: mullvadDNSSuffix).isSuffixOf (canonical fold dns)

def isMullvadIdentity (fold : CaseFold) (tags : List Bytes) (dns : Bytes) : Bool :=
  decide (mullvadExitNodeTag ∈ tags) || isMullvadDNSName fold dns

structure MeshIdentity where
  user : ℤ
  sharee : Bool
  tags : List Bytes
  dns : Bytes
  deriving DecidableEq, Repr

def MeshIdentity.tagged (id : MeshIdentity) : Bool := !id.tags.isEmpty

def meshIdentityFromWhoIs (who : Option Node) : Option MeshIdentity :=
  match who with
  | none => none
  | some n => n.hostinfo.map fun hi => ⟨n.user, hi.shareeNode, n.tags, n.name⟩

inductive MeshTagError where
  | untaggedSelf
  | tagRequired
  | tagMissing (meshTag : Bytes) (has : List Bytes)
  deriving DecidableEq, Repr

def checkSelfMeshTagConfig (self : MeshIdentity) (meshTag : Bytes) : Except MeshTagError Unit :=
  if !self.tagged then
    if meshTag ≠ [] then .error .untaggedSelf else .ok ()
  else if meshTag = [] then .error .tagRequired
  else if meshTag ∉ self.tags then .error (.tagMissing meshTag self.tags)
  else .ok ()

structure MeshGate where
  requireTag : Bytes
  user : ℤ
  deriving DecidableEq, Repr

def newMeshGate (self : MeshIdentity) (meshTag : Bytes) : Except MeshTagError MeshGate := do
  checkSelfMeshTagConfig self meshTag
  if self.tagged then return ⟨meshTag, 0⟩ else return ⟨[], self.user⟩

def MeshGate.allows (fold : CaseFold) (g : MeshGate) (peer : MeshIdentity) : Bool :=
  if peer.sharee || isMullvadIdentity fold peer.tags peer.dns then false
  else if g.requireTag ≠ [] then decide (g.requireTag ∈ peer.tags)
  else if g.user = 0 ∨ peer.user = 0 then false
  else decide (peer.user = g.user)

/-- What the node knows when a Hello arrives: whether it has a local client, what the client
answers to WhoIs and to the question for the node itself, and the gate it has cached. -/
structure LocalAPI where
  connected : Bool
  whoIs : Bytes → Option (Option Node)
  self : Option (Option MeshIdentity)
  cachedGate : Option MeshGate
  meshTag : Bytes

inductive VerifyError where
  | noLocalClient
  | whoIs (addr : Bytes)
  | emptyNode (addr : Bytes)
  | claimMismatch (claimed addr : Bytes)
  | status
  | noSelf
  | gate (e : MeshTagError)
  | notTrusted (addr : Bytes)
  deriving DecidableEq, Repr

def meshGateForHello (api : LocalAPI) : Except VerifyError MeshGate :=
  match api.cachedGate with
  | some g => .ok g
  | none =>
      match api.self with
      | none => .error .status
      | some none => .error .noSelf
      | some (some self) => (newMeshGate self api.meshTag).mapError .gate

def verifyPeerNodeID (fold : CaseFold) (api : LocalAPI) (remoteAddr claimed : Bytes) :
    Except VerifyError Unit :=
  if !api.connected then .error .noLocalClient
  else match api.whoIs remoteAddr with
    | none => .error (.whoIs remoteAddr)
    | some none => .error (.emptyNode remoteAddr)
    | some (some n) =>
        if !claimedMatchesWhoIs fold claimed (some n) then
          .error (.claimMismatch claimed remoteAddr)
        else match meshGateForHello api with
          | .error e => .error e
          | .ok g =>
              match meshIdentityFromWhoIs (some n) with
              | none => .error (.notTrusted remoteAddr)
              | some pid => if g.allows fold pid then .ok () else .error (.notTrusted remoteAddr)

def firstLabel (c : Bytes) : Bytes := c.takeWhile fun b => b != period

def names (fold : CaseFold) (n : Node) : List Bytes :=
  ((candidates n).map (canonical fold)).filter fun c => !c.isEmpty

theorem firstLabel_append (w t : Bytes) : firstLabel (w ++ period :: t) = firstLabel w := by
  induction w with
  | nil => simp [firstLabel]
  | cons b rest ih =>
    unfold firstLabel at ih ⊢
    by_cases hb : b = period
    · simp [hb]
    · simp [hb, ih]

theorem firstLabel_of_dotless {c : Bytes} (h : period ∉ c) : firstLabel c = c := by
  rw [firstLabel, List.takeWhile_eq_self_iff]
  intro b hb
  have hne : b ≠ period := ne_of_mem_of_not_mem hb h
  simpa using hne

/-- A name is its first label, or continues it with a dot. -/
theorem firstLabel_cases (c : Bytes) :
    (period ∉ c ∧ firstLabel c = c) ∨ ∃ t, c = firstLabel c ++ period :: t := by
  by_cases h : period ∈ c
  · obtain ⟨w, t, rfl, hw⟩ := List.eq_append_cons_of_mem h
    exact Or.inr ⟨t, by rw [firstLabel_append, firstLabel_of_dotless hw]⟩
  · exact Or.inl ⟨h, firstLabel_of_dotless h⟩

theorem dotless_firstLabel (c : Bytes) : period ∉ firstLabel c := by
  intro h
  simpa using List.mem_takeWhile_imp h

section Matches
variable {fold : CaseFold}

/-- ToLower works on each label by itself. -/
theorem toLower_firstLabel (fold : CaseFold) (s : Bytes) :
    firstLabel (fold.toLower s) = fold.toLower (firstLabel s) := by
  rcases firstLabel_cases s with ⟨hdotless, hlabel⟩ | ⟨t, ht⟩
  · rw [hlabel, firstLabel_of_dotless (fold.dotless s hdotless)]
  · conv_lhs => rw [ht, fold.split, firstLabel_append]
    exact firstLabel_of_dotless (fold.dotless _ (dotless_firstLabel s))

/-- A claim that matches a name has its first label. -/
theorem firstLabel_of_match {want c : Bytes} (h : c = want ∨ want ++ [period] <+: c) :
    firstLabel c = firstLabel want := by
  rcases h with rfl | ⟨t, rfl⟩
  · rfl
  · rw [List.append_assoc]
    exact firstLabel_append want t

/-- The first label of a name is a claim that matches it. -/
theorem match_firstLabel (c : Bytes) : c = firstLabel c ∨ firstLabel c ++ [period] <+: c := by
  rcases firstLabel_cases c with ⟨_, hlabel⟩ | ⟨t, ht⟩
  · exact Or.inl hlabel.symm
  · exact Or.inr ⟨t, by rw [List.append_assoc]; exact ht.symm⟩

theorem claimedMatchesWhoIs_iff {claimed : Bytes} {n : Node} :
    claimedMatchesWhoIs fold claimed (some n) = true ↔ claimed ≠ [] ∧
      ∃ c ∈ names fold n,
        c = canonical fold claimed ∨ canonical fold claimed ++ [period] <+: c := by
  unfold claimedMatchesWhoIs names
  by_cases hclaimed : claimed = []
  · simp [hclaimed]
  · simp only [hclaimed, if_false, List.any_eq_true, ne_eq, not_false_eq_true, true_and,
      List.mem_filter, List.mem_map]
    constructor
    · rintro ⟨name, hname, hmatch⟩
      split at hmatch
      · exact absurd hmatch (by simp)
      · rename_i hne
        refine ⟨_, ⟨⟨name, hname, rfl⟩, by simpa using hne⟩, ?_⟩
        simpa using hmatch
    · rintro ⟨_, ⟨⟨name, hname, rfl⟩, hne⟩, hmatch⟩
      refine ⟨name, hname, ?_⟩
      rw [if_neg (by simpa using hne)]
      simpa using hmatch

theorem trimSuffix_dotted (s : Bytes) : trimSuffix (s ++ [period]) [period] = s := by
  simp [trimSuffix]

/-- A first label of a name can be claimed, as it is. -/
theorem canonical_claim {n : Node} {c : Bytes} (hc : c ∈ names fold n) :
    canonical fold (firstLabel c ++ [period]) = firstLabel c := by
  obtain ⟨hc, _⟩ := List.mem_filter.mp hc
  obtain ⟨name, _, rfl⟩ := List.mem_map.mp hc
  rw [canonical, trimSuffix_dotted, canonical, toLower_firstLabel, fold.idem]

/-- What verifyPeerNodeID accepts matches the node behind the address. -/
theorem claim_matches_of_verify {api : LocalAPI} {addr claimed : Bytes}
    (h : verifyPeerNodeID fold api addr claimed = .ok ()) :
    ∃ n, api.whoIs addr = some (some n) ∧ claimedMatchesWhoIs fold claimed (some n) = true := by
  unfold verifyPeerNodeID at h
  split at h
  · exact absurd h (by simp)
  · split at h
    · exact absurd h (by simp)
    · exact absurd h (by simp)
    · rename_i n hwho
      split at h
      · exact absurd h (by simp)
      · rename_i hmatch
        exact ⟨n, hwho, by simpa using hmatch⟩

/-- All that verifyPeerNodeID has seen when it accepts. -/
theorem verify_ok {api : LocalAPI} {addr claimed : Bytes}
    (h : verifyPeerNodeID fold api addr claimed = .ok ()) :
    ∃ n g pid, api.connected = true ∧ api.whoIs addr = some (some n) ∧
      claimedMatchesWhoIs fold claimed (some n) = true ∧ meshGateForHello api = .ok g ∧
      meshIdentityFromWhoIs (some n) = some pid ∧ g.allows fold pid = true := by
  unfold verifyPeerNodeID at h
  split at h
  · exact absurd h (by simp)
  · rename_i hconnected
    split at h
    · exact absurd h (by simp)
    · exact absurd h (by simp)
    · rename_i n hwho
      split at h
      · exact absurd h (by simp)
      · rename_i hmatch
        split at h
        · exact absurd h (by simp)
        · rename_i g hgate
          split at h
          · exact absurd h (by simp)
          · rename_i pid hpid
            split at h
            · rename_i hallows
              exact ⟨n, g, pid, by simpa using hconnected, hwho, by simpa using hmatch, hgate,
                hpid, hallows⟩
            · exact absurd h (by simp)

end Matches

/-- No claim is accepted for both of two nodes exactly when no name of one has the same first
label as a name of the other. Then no node ID can be verified for both of them, whatever
addresses they are seen at. -/
theorem identity_exclusive_iff (fold : CaseFold) (n₁ n₂ : Node) :
    ((∀ claimed, ¬ (claimedMatchesWhoIs fold claimed (some n₁) = true ∧
        claimedMatchesWhoIs fold claimed (some n₂) = true)) ↔
      ∀ a ∈ names fold n₁, ∀ b ∈ names fold n₂, firstLabel a ≠ firstLabel b) ∧
    ((∀ a ∈ names fold n₁, ∀ b ∈ names fold n₂, firstLabel a ≠ firstLabel b) →
      ∀ api addr₁ addr₂ claimed, api.whoIs addr₁ = some (some n₁) →
        api.whoIs addr₂ = some (some n₂) →
        ¬ (verifyPeerNodeID fold api addr₁ claimed = .ok () ∧
          verifyPeerNodeID fold api addr₂ claimed = .ok ())) := by
  have hexclusive : (∀ a ∈ names fold n₁, ∀ b ∈ names fold n₂, firstLabel a ≠ firstLabel b) →
      ∀ claimed, ¬ (claimedMatchesWhoIs fold claimed (some n₁) = true ∧
        claimedMatchesWhoIs fold claimed (some n₂) = true) := by
    rintro hlabels claimed ⟨h₁, h₂⟩
    obtain ⟨_, a, ha, hmatch₁⟩ := claimedMatchesWhoIs_iff.mp h₁
    obtain ⟨_, b, hb, hmatch₂⟩ := claimedMatchesWhoIs_iff.mp h₂
    exact hlabels a ha b hb
      ((firstLabel_of_match hmatch₁).trans (firstLabel_of_match hmatch₂).symm)
  refine ⟨⟨?_, hexclusive⟩, ?_⟩
  · intro hnone a ha b hb hlabel
    refine hnone (firstLabel a ++ [period])
      ⟨claimedMatchesWhoIs_iff.mpr ⟨by simp, a, ha, ?_⟩,
        claimedMatchesWhoIs_iff.mpr ⟨by simp, b, hb, ?_⟩⟩
    · rw [canonical_claim ha]
      exact match_firstLabel a
    · rw [hlabel, canonical_claim hb]
      exact match_firstLabel b
  · rintro hlabels api addr₁ addr₂ claimed hwho₁ hwho₂ ⟨h₁, h₂⟩
    obtain ⟨m₁, hm₁, hmatch₁⟩ := claim_matches_of_verify h₁
    obtain ⟨m₂, hm₂, hmatch₂⟩ := claim_matches_of_verify h₂
    rw [hwho₁] at hm₁
    rw [hwho₂] at hm₂
    cases hm₁
    cases hm₂
    exact hexclusive hlabels claimed ⟨hmatch₁, hmatch₂⟩

def lowerByte (b : UInt8) : UInt8 := if 65 ≤ b.toNat ∧ b.toNat ≤ 90 then b + 32 else b

theorem lowerByte_toNat (b : UInt8) : (lowerByte b).toNat =
    if 65 ≤ b.toNat ∧ b.toNat ≤ 90 then b.toNat + 32 else b.toNat := by
  unfold lowerByte
  split
  · rw [UInt8.toNat_add, show (32 : UInt8).toNat = 32 from rfl]
    omega
  · rfl

/-- Lower case for ASCII letters, which is ToLower on ASCII strings. -/
def asciiFold : CaseFold where
  toLower s := s.map lowerByte
  idem s := by
    rw [List.map_map]
    refine List.map_congr_left fun b _ => ?_
    apply UInt8.toNat_inj.mp
    rw [Function.comp_apply, lowerByte_toNat (lowerByte b), lowerByte_toNat b]
    by_cases hb : 65 ≤ b.toNat ∧ b.toNat ≤ 90
    · rw [if_pos hb, if_neg (by omega)]
    · rw [if_neg hb, if_neg hb]
  split a b := by
    rw [List.map_append, List.map_cons]
    rfl
  dotless s h := by
    rw [List.mem_map]
    rintro ⟨b, hb, hdot⟩
    have hnat := congrArg UInt8.toNat hdot
    rw [lowerByte_toNat] at hnat
    have hb' : b ≠ period := ne_of_mem_of_not_mem hb h
    have hnot : b.toNat ≠ 46 := fun heq => hb' (UInt8.toNat_inj.mp heq)
    have hperiod : period.toNat = 46 := rfl
    split at hnat <;> omega

def tailnetNode (name stableID hostname : String) : Node :=
  ⟨ascii name, ascii stableID, some ⟨ascii hostname, false⟩, [], 7, []⟩

def victim : Node := tailnetNode "server.tail.ts.net." "n1" "server"

def impostor : Node := tailnetNode "laptop.tail.ts.net." "n2" "server"

def twoPeers : LocalAPI where
  connected := true
  whoIs addr :=
    if addr = ascii "1" then some (some victim)
    else if addr = ascii "2" then some (some impostor) else none
  self := none
  cachedGate := some ⟨[], 7⟩
  meshTag := []

/-- A node that reports the host name of another one is accepted under its ID. -/
theorem hostname_takes_identity :
    victim.stableID ≠ impostor.stableID ∧ victim.name ≠ impostor.name ∧
    verifyPeerNodeID asciiFold twoPeers (ascii "1") (ascii "server") = .ok () ∧
    verifyPeerNodeID asciiFold twoPeers (ascii "2") (ascii "server") = .ok () :=
  ⟨by decide, by decide, by rfl, by rfl⟩

end TailSync.PeerIdentity
