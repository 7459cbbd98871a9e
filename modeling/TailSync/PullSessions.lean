import TailSync.RemoteApply

/-!
A pull from one peer, pullFromSession of daemon/apply.go. The entries of the peer's
manifest are applied one after the other; an entry that fails is passed over unless
the connection broke, and the index is saved once at the end. The manifest itself,
and everything outside of each apply, are parameters.
-/
namespace TailSync.PullSessions

open ByteStrings Entries IndexMap SyncRoot Scanning MachineInts Transfers RemoteApply

/-- The outside of one entry of the manifest: whether the context has ended before
it, and the outside of its apply. -/
structure EntryEnv where
  cancelled : Bool
  apply : ApplyEnv

inductive PullError where
  | closed
  | fetch (e : ApplyError)
  | cancelled
  | transport (e : ApplyError)
  | saveIndex
  deriving DecidableEq, Repr

inductive PullStop where
  | cancelled
  | transport (e : ApplyError)
  | panicked
  deriving DecidableEq, Repr

structure PullLoop where
  daemon : Daemon
  changed : Bool
  acquired : List Entry
  stop : Option PullStop

def pullEntries (cfg : Config) (hs : Hashes) :
    Daemon → Bool → List Entry → List (Entry × EntryEnv) → PullLoop
  | d, changed, acquired, [] => ⟨d, changed, acquired, none⟩
  | d, changed, acquired, (remote, env) :: rest =>
      if env.cancelled then ⟨d, changed, acquired, some .cancelled⟩
      else match applyRemote cfg hs env.apply d remote with
        | (d', .panic) => ⟨d', changed, acquired, some .panicked⟩
        | (d', .err e) =>
            if isTransportErr e then ⟨d', changed, acquired, some (.transport e)⟩
            else pullEntries cfg hs d' changed acquired rest
        | (d', .ok false) => pullEntries cfg hs d' changed acquired rest
        | (d', .ok true) =>
            pullEntries cfg hs d' true (acquired ++ (d'.idx.get remote.path).toList) rest

/-- What a pull ends with: the new state, the entries scheduled to be announced to
other peers, and the result. -/
structure Pulled where
  daemon : Daemon
  notified : List Entry
  result : Outcome PullError Unit

/-- pullFromSession, with the manifest that was fetched. -/
def pullFromSession (cfg : Config) (hs : Hashes) (h : Host) (d : Daemon)
    (fetched : Except PullError (List (Entry × EntryEnv))) : Pulled :=
  match fetched with
  | .error e => ⟨d, [], .err e⟩
  | .ok entries =>
      let loop := pullEntries cfg hs d false [] entries
      match loop.stop with
      | some .panicked => ⟨loop.daemon, [], .panic⟩
      | some .cancelled => ⟨loop.daemon, [], .err .cancelled⟩
      | some (.transport e) => finish loop (.err (.transport e))
      | none => finish loop (.ok ())
where
  /-- The saving of the index and the announcement of what was acquired. -/
  finish (loop : PullLoop) (result : Outcome PullError Unit) : Pulled :=
    if loop.changed then
      if h.fails .save then ⟨loop.daemon, [], .err .saveIndex⟩
      else ⟨{ loop.daemon with appliesSinceSave := 0, saved := loop.daemon.idx },
        loop.acquired, result⟩
    else ⟨loop.daemon, [], result⟩

def applyAll (cfg : Config) (hs : Hashes) (d : Daemon) (entries : List (Entry × EntryEnv)) :
    Daemon :=
  entries.foldl (fun d x => (applyRemote cfg hs x.2.apply d x.1).1) d

def AllApplied (cfg : Config) (hs : Hashes) : Daemon → List (Entry × EntryEnv) → Prop
  | _, [] => True
  | d, (remote, env) :: rest =>
      env.cancelled = false ∧ (∃ changed, (applyRemote cfg hs env.apply d remote).2 = .ok changed) ∧
        AllApplied cfg hs (applyRemote cfg hs env.apply d remote).1 rest

instance AllApplied.decidable (cfg : Config) (hs : Hashes) :
    (d : Daemon) → (entries : List (Entry × EntryEnv)) → Decidable (AllApplied cfg hs d entries)
  | _, [] => isTrue trivial
  | d, (remote, env) :: rest =>
      have := AllApplied.decidable cfg hs (applyRemote cfg hs env.apply d remote).1 rest
      inferInstanceAs (Decidable (env.cancelled = false ∧
        (∃ changed, (applyRemote cfg hs env.apply d remote).2 = .ok changed) ∧
        AllApplied cfg hs (applyRemote cfg hs env.apply d remote).1 rest))

section Complete
variable {cfg : Config} {hs : Hashes} {h : Host}

theorem pullEntries_complete {d : Daemon} {entries : List (Entry × EntryEnv)}
    (hall : AllApplied cfg hs d entries) (changed : Bool) (acquired : List Entry) :
    (pullEntries cfg hs d changed acquired entries).daemon = applyAll cfg hs d entries ∧
      (pullEntries cfg hs d changed acquired entries).stop = none := by
  induction entries generalizing d changed acquired with
  | nil => exact ⟨rfl, rfl⟩
  | cons x rest ih =>
    obtain ⟨remote, env⟩ := x
    obtain ⟨hrunning, ⟨did, hok⟩, hrest⟩ := hall
    rw [pullEntries, hrunning, if_neg (by simp)]
    simp only [applyAll, List.foldl_cons] at ih ⊢
    generalize applyRemote cfg hs env.apply d remote = out at hok hrest ⊢
    obtain ⟨d', r⟩ := out
    dsimp only at hok
    subst hok
    cases did with
    | true => exact ih hrest _ _
    | false => exact ih hrest _ _

theorem finish_daemon (loop : PullLoop) (result : Outcome PullError Unit) :
    (pullFromSession.finish h loop result).daemon.idx = loop.daemon.idx ∧
      (pullFromSession.finish h loop result).daemon.root = loop.daemon.root := by
  unfold pullFromSession.finish
  split
  · split
    · exact ⟨rfl, rfl⟩
    · exact ⟨rfl, rfl⟩
  · exact ⟨rfl, rfl⟩

/-- A pull in which every apply succeeds leaves the index and the tree of having
applied every entry. -/
theorem pullFromSession_complete {d : Daemon} {entries : List (Entry × EntryEnv)}
    (hall : AllApplied cfg hs d entries) :
    (pullFromSession cfg hs h d (.ok entries)).daemon.idx = (applyAll cfg hs d entries).idx ∧
      (pullFromSession cfg hs h d (.ok entries)).daemon.root =
        (applyAll cfg hs d entries).root := by
  obtain ⟨hdaemon, hstop⟩ := pullEntries_complete hall false []
  unfold pullFromSession
  dsimp only
  rw [hstop, ← hdaemon]
  exact finish_daemon _ _

end Complete

end TailSync.PullSessions
