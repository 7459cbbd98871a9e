import TailSync.ByteStrings
import Mathlib.Data.Nat.Digits.Lemmas

/-!
Addresses of the form host:port, as Go's net package joins and splits them, and ports as
strconv writes them. A host with a colon in it goes into brackets. Splitting looks for the
last colon, and then for what makes the address ambiguous: a colon too many, or brackets in
the wrong places.
-/
namespace TailSync.HostPorts

open ByteStrings

def colon : UInt8 := 58
def openBracket : UInt8 := 91
def closeBracket : UInt8 := 93

def joinHostPort (host port : Bytes) : Bytes :=
  if colon ∈ host then openBracket :: (host ++ closeBracket :: colon :: port)
  else host ++ colon :: port

inductive AddrError where
  | missingPort
  | tooManyColons
  | missingBracket
  | unexpectedOpen
  | unexpectedClose
  deriving DecidableEq, Repr

def indexByte (s : Bytes) (b : UInt8) : Option ℕ := s.findIdx? fun c => c == b

def lastIndexByte (s : Bytes) (b : UInt8) : Option ℕ :=
  (s.reverse.findIdx? fun c => c == b).map fun k => s.length - 1 - k

def splitHostPort (hostport : Bytes) : Except AddrError (Bytes × Bytes) :=
  match lastIndexByte hostport colon with
  | none => .error .missingPort
  | some i =>
      if hostport.head? = some openBracket then
        -- the first closing bracket is expected just before the last colon
        match indexByte hostport closeBracket with
        | none => .error .missingBracket
        | some stop =>
            if stop + 1 = hostport.length then .error .missingPort
            else if stop + 1 = i then
              checked i ((hostport.take stop).drop 1) (hostport.drop 1) (hostport.drop (stop + 1))
            else if hostport[stop + 1]? = some colon then .error .tooManyColons
            else .error .missingPort
      else if colon ∈ hostport.take i then .error .tooManyColons
      else checked i (hostport.take i) hostport hostport
where
  /-- The last check: no bracket where none may be. -/
  checked (i : ℕ) (host noOpen noClose : Bytes) : Except AddrError (Bytes × Bytes) :=
    if openBracket ∈ noOpen then .error .unexpectedOpen
    else if closeBracket ∈ noClose then .error .unexpectedClose
    else .ok (host, hostport.drop (i + 1))

theorem indexByte_append {s t : Bytes} {b : UInt8} (h : b ∉ s) :
    indexByte (s ++ b :: t) b = some s.length := by
  have hnone : s.findIdx? (fun c => c == b) = none := by
    rw [List.findIdx?_eq_none_iff]
    intro c hc
    simpa using ne_of_mem_of_not_mem hc h
  simp [indexByte, List.findIdx?_append, hnone, List.findIdx?_cons]

theorem lastIndexByte_append {s t : Bytes} {b : UInt8} (h : b ∉ t) :
    lastIndexByte (s ++ b :: t) b = some s.length := by
  have hrev : (s ++ b :: t).reverse = t.reverse ++ b :: s.reverse := by simp
  have hfirst := @indexByte_append t.reverse s.reverse b (by simpa using h)
  unfold indexByte at hfirst
  unfold lastIndexByte
  rw [hrev, hfirst]
  simp

def Plain (s : Bytes) : Prop := openBracket ∉ s ∧ closeBracket ∉ s

/-- Joining and splitting are inverse to each other. -/
theorem splitHostPort_joinHostPort {host port : Bytes} (hhost : Plain host) (hport : Plain port)
    (hcolon : colon ∉ port) : splitHostPort (joinHostPort host port) = .ok (host, port) := by
  obtain ⟨hopen, hclose⟩ := hhost
  obtain ⟨hopen', hclose'⟩ := hport
  have hoc : openBracket ≠ closeBracket := by decide
  have hco : colon ≠ openBracket := by decide
  have hcc : colon ≠ closeBracket := by decide
  unfold joinHostPort
  split
  · -- an IPv6 address, in brackets
    have hlast : lastIndexByte (openBracket :: (host ++ closeBracket :: colon :: port)) colon =
        some (host.length + 2) := by
      have happend := @lastIndexByte_append (openBracket :: (host ++ [closeBracket])) port colon
        hcolon
      simpa using happend
    have hstop : indexByte (openBracket :: (host ++ closeBracket :: colon :: port)) closeBracket =
        some (host.length + 1) := by
      have happend := @indexByte_append (openBracket :: host) (colon :: port) closeBracket
        (by simp [hclose, hoc.symm])
      simpa using happend
    unfold splitHostPort
    rw [hlast]
    dsimp only
    rw [hstop]
    simp [splitHostPort.checked, hopen, hopen', hclose', hoc, hco.symm, hcc.symm]
  · rename_i hplain
    have hhead : (host ++ colon :: port).head? ≠ some openBracket := by
      cases host with
      | nil => simpa using hco
      | cons b rest =>
        have hne : b ≠ openBracket := fun heq => hopen (by simp [heq])
        simpa using hne
    unfold splitHostPort
    rw [lastIndexByte_append hcolon]
    dsimp only
    rw [if_neg hhead]
    simp [splitHostPort.checked, hplain, hopen, hopen', hclose, hclose', hco.symm, hcc.symm]

/-- Two addresses are the same only if host and port are. -/
theorem joinHostPort_inj {host host' port port' : Bytes} (hhost : Plain host)
    (hhost' : Plain host') (hport : Plain port) (hport' : Plain port') (hcolon : colon ∉ port)
    (hcolon' : colon ∉ port') (h : joinHostPort host port = joinHostPort host' port') :
    host = host' ∧ port = port' := by
  have hsplit := splitHostPort_joinHostPort hhost hport hcolon
  rw [h, splitHostPort_joinHostPort hhost' hport' hcolon'] at hsplit
  have hpair := Except.ok.inj hsplit
  exact ⟨(congrArg Prod.fst hpair).symm, (congrArg Prod.snd hpair).symm⟩

def digitByte (d : ℕ) : UInt8 := 48 + d.toUInt8

def minus : UInt8 := 45

def decimal (n : ℕ) : Bytes :=
  if n = 0 then [digitByte 0] else ((Nat.digits 10 n).map digitByte).reverse

def itoa (n : ℤ) : Bytes := if n < 0 then minus :: decimal n.natAbs else decimal n.natAbs

theorem digitByte_inj {d d' : ℕ} (hd : d < 10) (hd' : d' < 10) (h : digitByte d = digitByte d') :
    d = d' := by
  interval_cases d <;> interval_cases d' <;> first | rfl | exact absurd h (by decide)

theorem digitByte_spec {d : ℕ} (hd : d < 10) : digitByte d ≠ minus ∧ digitByte d ≠ colon ∧
    digitByte d ≠ openBracket ∧ digitByte d ≠ closeBracket := by
  interval_cases d <;> decide

theorem mem_decimal {n : ℕ} {b : UInt8} (hb : b ∈ decimal n) : ∃ d < 10, b = digitByte d := by
  unfold decimal at hb
  split at hb
  · exact ⟨0, by decide, by simpa using hb⟩
  · obtain ⟨d, hd, rfl⟩ := List.mem_map.mp (List.mem_reverse.mp hb)
    exact ⟨d, Nat.digits_lt_base (by decide) hd, rfl⟩

theorem digits_map_inj {xs ys : List ℕ} (hxs : ∀ d ∈ xs, d < 10) (hys : ∀ d ∈ ys, d < 10)
    (h : xs.map digitByte = ys.map digitByte) : xs = ys := by
  induction xs generalizing ys with
  | nil => simpa using h.symm
  | cons x xs ih =>
    cases ys with
    | nil => simp at h
    | cons y ys =>
      simp only [List.map_cons, List.cons.injEq] at h
      rw [digitByte_inj (hxs x (by simp)) (hys y (by simp)) h.1,
        ih (fun d hd => hxs d (by simp [hd])) (fun d hd => hys d (by simp [hd])) h.2]

/-- No other number starts with a zero. -/
theorem decimal_ne_zero {n : ℕ} (hn : n ≠ 0) : decimal n ≠ [digitByte 0] := by
  intro h
  rw [decimal, if_neg hn, List.reverse_eq_iff] at h
  have hdigits : Nat.digits 10 n = [0] :=
    digits_map_inj (fun d hd => Nat.digits_lt_base (by decide) hd) (by simp) (by simpa using h)
  have hvalue := congrArg (Nat.ofDigits 10) hdigits
  rw [Nat.ofDigits_digits] at hvalue
  exact hn (by simpa using hvalue)

theorem decimal_inj {m n : ℕ} (h : decimal m = decimal n) : m = n := by
  by_cases hm : m = 0
  · subst hm
    by_contra hn
    exact decimal_ne_zero (Ne.symm hn) (h.symm.trans (by simp [decimal]))
  · by_cases hn : n = 0
    · subst hn
      exact absurd (h.trans (by simp [decimal])) (decimal_ne_zero hm)
    · rw [decimal, if_neg hm, decimal, if_neg hn, List.reverse_inj] at h
      exact Nat.digits_inj_iff.mp (digits_map_inj
        (fun d hd => Nat.digits_lt_base (by decide) hd)
        (fun d hd => Nat.digits_lt_base (by decide) hd) h)

theorem minus_notMem_decimal (n : ℕ) : minus ∉ decimal n := by
  intro h
  obtain ⟨d, hd, heq⟩ := mem_decimal h
  exact (digitByte_spec hd).1 heq.symm

theorem itoa_inj {m n : ℤ} (h : itoa m = itoa n) : m = n := by
  unfold itoa at h
  split at h <;> split at h
  · have habs := decimal_inj (List.cons.inj h).2
    omega
  · exact absurd (h ▸ List.mem_cons_self) (minus_notMem_decimal _)
  · exact absurd (h ▸ List.mem_cons_self) (minus_notMem_decimal _)
  · have habs := decimal_inj h
    omega

/-- A port can stand after the colon. -/
theorem itoa_plain (n : ℤ) : Plain (itoa n) ∧ colon ∉ itoa n := by
  have hbyte : ∀ b ∈ itoa n, b ≠ colon ∧ b ≠ openBracket ∧ b ≠ closeBracket := by
    have hdecimal : ∀ b ∈ decimal n.natAbs, b ≠ colon ∧ b ≠ openBracket ∧ b ≠ closeBracket := by
      intro b hb
      obtain ⟨d, hd, rfl⟩ := mem_decimal hb
      exact (digitByte_spec hd).2
    intro b hb
    unfold itoa at hb
    split at hb
    · rcases List.mem_cons.mp hb with rfl | hb
      · decide
      · exact hdecimal b hb
    · exact hdecimal b hb
  exact ⟨⟨fun h => (hbyte _ h).2.1 rfl, fun h => (hbyte _ h).2.2 rfl⟩, fun h => (hbyte _ h).1 rfl⟩

end TailSync.HostPorts
