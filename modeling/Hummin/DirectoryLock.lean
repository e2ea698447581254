/-
The lock directory of the team board and of the scheduler. A call makes the directory, then
creates and writes its owner file; a call that finds the directory reads the owner, and
renames the directory away when it names no living process. Every file-system step of every
call is a step of its own, and a process can crash between any two.
-/
import Hummin.Machine
import Mathlib.Logic.Function.Basic

namespace Hummin.DirectoryLock

universe u

/-- `owner.json`: the call that created it, and the pid in it once it is written. -/
structure OwnerFile where
  creator : Nat
  pid : Option Nat
deriving DecidableEq

/-- A directory at the lock path, told from the others that were there by its number. -/
structure Directory where
  number : Nat
  owner : Option OwnerFile
deriving DecidableEq

/-- How the two locks differ: the board's waits for a live owner, the scheduler's gives up. -/
structure Variant where
  attempts : Nat
  chmods : Bool
  waits : Bool

def boardLock : Variant := ⟨40, true, true⟩

def schedulerLock : Variant := ⟨8, false, false⟩

/-- Where a call is: what it does next. `wrote`: it has written the board. -/
inductive Stage (T : Type u)
  | making (attempt : Nat)
  | chmodding (attempt : Nat)
  | creating (attempt : Nat)
  | writingOwner (attempt : Nat) (directory : Nat)
  | judging (attempt : Nat)
  | sleeping (attempt : Nat)
  | renaming (attempt : Nat)
  | removingStale (attempt : Nat)
  | acquired
  | writingBoard (tasks : T)
  | releasing (wrote : Bool)
  | removing (wrote : Bool)
  | ended (wrote : Bool)
deriving DecidableEq

/-- Between a successful acquire and the end of the release. -/
def Stage.holds {T : Type u} : Stage T → Bool
  | .acquired => true
  | .writingBoard _ => true
  | .releasing _ => true
  | .removing _ => true
  | _ => false

/-- Its mutation is on the board. -/
def Stage.wrote {T : Type u} : Stage T → Bool
  | .releasing wrote => wrote
  | .removing wrote => wrote
  | .ended wrote => wrote
  | _ => false

def Stage.renames {T : Type u} : Stage T → Bool
  | .renaming _ => true
  | _ => false

/-- The calls there are: the process of each, and what it makes of the board, `none` where it
throws. -/
structure Calls (T : Type u) where
  lock : Variant
  process : Nat → Nat
  mutate : Nat → T → Option T

/-- `log`: the calls that have written the board, in the order of their writes. -/
structure State (T : Type u) where
  lock : Option Directory
  made : Nat
  board : T
  stage : Nat → Stage T
  crashed : List Nat
  log : List Nat

def start {T : Type u} (board : T) : State T := ⟨none, 0, board, fun _ => .making 0, [], []⟩

inductive Input
  | advance (call : Nat)
  | leave (call : Nat)
  | fail (call : Nat)
  | crash (process : Nat)

variable {T : Type u} (calls : Calls T)

namespace State

def pidIsAlive (state : State T) (pid : Nat) : Bool := pid ∉ state.crashed

/-- The process of a call has not crashed. -/
def Live (state : State T) (call : Nat) : Prop := calls.process call ∉ state.crashed

instance (state : State T) (call : Nat) : Decidable (state.Live calls call) :=
  inferInstanceAs (Decidable (_ ∉ _))

def moveTo (state : State T) (call : Nat) (stage : Stage T) : State T :=
  { state with stage := Function.update state.stage call stage }

/-- The pid in the owner file; without a file or before its text is written there is none. -/
def readOwnerPid (state : State T) : Option Nat :=
  state.lock.bind fun directory => directory.owner.bind fun file => file.pid

end State

/-- The next round of the loop, or the end of it. -/
def afterAttempt (attempt : Nat) : Stage T :=
  if attempt + 1 < calls.lock.attempts then .making (attempt + 1) else .ended false

/-- `mkdirSync(lockPath)`. -/
def makeDirectory (state : State T) (call attempt : Nat) : State T :=
  match state.lock with
  | some _ => state.moveTo call (.judging attempt)
  | none =>
    { state with lock := some ⟨state.made, none⟩, made := state.made + 1 }.moveTo call
      (if calls.lock.chmods then .chmodding attempt else .creating attempt)

/-- `openSync(owner, "wx")`: it fails without the directory, and where the file is there. -/
def createOwner (state : State T) (call attempt : Nat) : State T :=
  match state.lock with
  | none => state.moveTo call (.ended false)
  | some directory => match directory.owner with
    | some _ => state.moveTo call (.judging attempt)
    | none =>
      { state with lock := some { directory with owner := some ⟨call, none⟩ } }.moveTo call
        (.writingOwner attempt directory.number)

/-- The write goes to the file that was opened, wherever its directory is by now. -/
def writeOwner (state : State T) (call number : Nat) : State T :=
  { state with lock := state.lock.map fun (directory : Directory) =>
      if directory.number = number then
        { directory with owner := some ⟨call, some (calls.process call)⟩ }
      else directory }.moveTo call .acquired

/-- Whether the directory that was found is stale. -/
def judge (state : State T) (call attempt : Nat) : State T :=
  match state.readOwnerPid with
  | some pid =>
    if state.pidIsAlive pid then
      state.moveTo call (if calls.lock.waits then .sleeping attempt else .ended false)
    else state.moveTo call (.renaming attempt)
  | none => state.moveTo call (.renaming attempt)

/-- `renameSync(lockPath, stalePath)`: what is at the path by now. -/
def renameAway (state : State T) (call attempt : Nat) : State T :=
  match state.lock with
  | none => state.moveTo call (afterAttempt calls attempt)
  | some _ => { state with lock := none }.moveTo call (.removingStale attempt)

/-- `mutate(readBoard(dir))`. -/
def mutateRead (state : State T) (call : Nat) : State T :=
  match calls.mutate call state.board with
  | some tasks => state.moveTo call (.writingBoard tasks)
  | none => state.moveTo call (.releasing false)

/-- The release reads the owner: another pid's lock is left alone. -/
def readForRelease (state : State T) (call : Nat) (wrote : Bool) : State T :=
  match state.readOwnerPid with
  | some pid =>
    if pid = calls.process call then state.moveTo call (.removing wrote)
    else state.moveTo call (.ended wrote)
  | none => state.moveTo call (.removing wrote)

/-- The next step of a call. -/
def advance (state : State T) (call : Nat) : Option (State T) :=
  match state.stage call with
  | .making attempt => some (makeDirectory calls state call attempt)
  | .chmodding attempt =>
    some (state.moveTo call (if state.lock.isSome then .creating attempt else .ended false))
  | .creating attempt => some (createOwner state call attempt)
  | .writingOwner _ directory => some (writeOwner calls state call directory)
  | .judging attempt => some (judge calls state call attempt)
  | .sleeping attempt => some (state.moveTo call (afterAttempt calls attempt))
  | .renaming attempt => some (renameAway calls state call attempt)
  | .removingStale attempt => some (state.moveTo call (afterAttempt calls attempt))
  | .acquired => some (mutateRead calls state call)
  | .writingBoard tasks =>
    some ({ state with board := tasks, log := state.log ++ [call] }.moveTo call (.releasing true))
  | .releasing wrote => some (readForRelease calls state call wrote)
  | .removing wrote => some ({ state with lock := none }.moveTo call (.ended wrote))
  | .ended _ => none

/-- One step: of a call whose process is alive, or a crash. A call that only takes the lock
leaves without touching the board; a wait can be aborted and a write of the board can throw. -/
def step (state : State T) : Input → Option (State T)
  | .advance call => if state.Live calls call then advance calls state call else none
  | .leave call =>
    if state.Live calls call then match state.stage call with
      | .acquired => some (state.moveTo call (.releasing false))
      | _ => none
    else none
  | .fail call =>
    if state.Live calls call then match state.stage call with
      | .sleeping _ => some (state.moveTo call (.ended false))
      | .writingBoard _ => some (state.moveTo call (.releasing false))
      | _ => none
    else none
  | .crash process => some { state with crashed := process :: state.crashed }

/-- A call renames the directory away only while no living process has its owner file in it. -/
def RenamesStale (state : State T) : Input → Prop
  | .advance call => (state.stage call).renames = true →
      ∀ directory ∈ state.lock, ∀ file ∈ directory.owner, ¬ state.Live calls file.creator
  | _ => True

instance (state : State T) : ∀ input, Decidable (RenamesStale calls state input)
  | .advance _ => inferInstanceAs (Decidable (_ = true → _))
  | .leave _ => .isTrue trivial
  | .fail _ => .isTrue trivial
  | .crash _ => .isTrue trivial

/-! ### The invariant -/

/-- The owner file of the lock directory is the call's, with the text `pid` in it. -/
def State.Owns (state : State T) (call : Nat) (pid : Option Nat) : Prop :=
  ∃ number, state.lock = some ⟨number, some ⟨call, pid⟩⟩

/-- Who lives and has created its owner file has it in the lock directory; what it makes of the
board is what it makes of the board there is; and the board is what the mutations of the log
made, one after the other. -/
structure Sound (board : T) (state : State T) : Prop where
  opened : ∀ call attempt number, state.Live calls call →
    state.stage call = .writingOwner attempt number → state.lock = some ⟨number, some ⟨call, none⟩⟩
  held : ∀ call, state.Live calls call → (state.stage call).holds = true →
    state.Owns call (some (calls.process call))
  current : ∀ call tasks, state.Live calls call → state.stage call = .writingBoard tasks →
    calls.mutate call state.board = some tasks
  applied : state.log.foldlM (fun tasks call => calls.mutate call tasks) board = some state.board
  once : state.log.Nodup
  logged : ∀ call, call ∈ state.log ↔ (state.stage call).wrote = true

variable {calls} {board : T} {state : State T}

/-- A living call whose owner file is in the lock directory. -/
def State.Possesses (calls : Calls T) (state : State T) (call : Nat) : Prop :=
  state.Live calls call ∧
    ((state.stage call).holds = true ∨ ∃ attempt number, state.stage call = .writingOwner attempt number)

theorem Sound.owns (hsound : Sound calls board state) {call : Nat}
    (hpossesses : state.Possesses calls call) : ∃ pid, state.Owns call pid := by
  obtain ⟨hlive, hholds | ⟨attempt, number, hstage⟩⟩ := hpossesses
  · exact ⟨_, hsound.held call hlive hholds⟩
  · exact ⟨_, number, hsound.opened call attempt number hlive hstage⟩

/-- At most one living call has its owner file in the lock directory. -/
theorem Sound.possesses_unique (hsound : Sound calls board state) {call other : Nat}
    (hcall : state.Possesses calls call) (hother : state.Possesses calls other) : call = other := by
  obtain ⟨pid, number, hlock⟩ := hsound.owns hcall
  obtain ⟨pid', number', hlock'⟩ := hsound.owns hother
  have hsame := Option.some.inj (hlock.symm.trans hlock')
  simp only [Directory.mk.injEq, Option.some.injEq, OwnerFile.mk.injEq] at hsame
  exact hsame.2.1

theorem sound_start (calls : Calls T) (board : T) : Sound calls board (start board) where
  opened := by simp [start]
  held := by simp [start, Stage.holds]
  current := by simp [start]
  applied := rfl
  once := List.nodup_nil
  logged := by simp [start, Stage.wrote]

/-! ### Steps -/

variable {stage : Stage T} {lock : Option Directory}

/-- A step of one call that leaves the log alone: the lock can change only where no other call
possesses it. -/
theorem Sound.move (hsound : Sound calls board state) {call : Nat}
    (made : Nat)
    (hlock : lock = state.lock ∨ ∀ other, other ≠ call → ¬ state.Possesses calls other)
    (hopened : ∀ attempt number, stage = .writingOwner attempt number →
      lock = some ⟨number, some ⟨call, none⟩⟩)
    (hheld : state.Live calls call → stage.holds = true →
      ∃ number, lock = some ⟨number, some ⟨call, some (calls.process call)⟩⟩)
    (hcurrent : ∀ tasks, stage = .writingBoard tasks → calls.mutate call state.board = some tasks)
    (hwrote : stage.wrote = (state.stage call).wrote) :
    Sound calls board ({ state with lock, made }.moveTo call stage) where
  opened := by
    intro other attempt number hlive hstage
    by_cases hsame : other = call
    · subst hsame
      exact hopened attempt number (by simpa [State.moveTo] using hstage)
    have hbefore : state.stage other = .writingOwner attempt number := by
      simpa [State.moveTo, hsame] using hstage
    rcases hlock with rfl | hnobody
    · exact hsound.opened other attempt number hlive hbefore
    · exact absurd ⟨hlive, .inr ⟨attempt, number, hbefore⟩⟩ (hnobody other hsame)
  held := by
    intro other hlive hholds
    by_cases hsame : other = call
    · subst hsame
      exact hheld hlive (by simpa [State.moveTo] using hholds)
    have hbefore : (state.stage other).holds = true := by
      simpa [State.moveTo, hsame] using hholds
    rcases hlock with rfl | hnobody
    · exact hsound.held other hlive hbefore
    · exact absurd ⟨hlive, .inl hbefore⟩ (hnobody other hsame)
  current := by
    intro other tasks hlive hstage
    by_cases hsame : other = call
    · subst hsame
      exact hcurrent tasks (by simpa [State.moveTo] using hstage)
    · exact hsound.current other tasks hlive (by simpa [State.moveTo, hsame] using hstage)
  applied := hsound.applied
  once := hsound.once
  logged := by
    intro other
    by_cases hsame : other = call
    · subst hsame
      simpa [State.moveTo, hwrote] using hsound.logged other
    · simpa [State.moveTo, hsame] using hsound.logged other

/-- A step to a stage without the lock, from one before the board is written. -/
theorem Sound.move_free (hsound : Sound calls board state) {call : Nat}
    (made : Nat)
    (hlock : lock = state.lock ∨ ∀ other, other ≠ call → ¬ state.Possesses calls other)
    (hfree : stage.holds = false) (hnot : ∀ attempt number, stage ≠ .writingOwner attempt number)
    (hwrote : stage.wrote = (state.stage call).wrote) :
    Sound calls board ({ state with lock, made }.moveTo call stage) := by
  apply hsound.move made hlock
  · intro attempt number hstage
    exact absurd hstage (hnot attempt number)
  · intro _ hholds
    simp [hfree] at hholds
  · rintro tasks rfl
    simp [Stage.holds] at hfree
  · exact hwrote

theorem afterAttempt_spec (calls : Calls T) (attempt : Nat) :
    (afterAttempt calls attempt).holds = false ∧ (afterAttempt calls attempt).wrote = false ∧
      ∀ round number, afterAttempt calls attempt ≠ .writingOwner round number := by
  unfold afterAttempt
  split
  · exact ⟨rfl, rfl, by simp⟩
  · exact ⟨rfl, rfl, by simp⟩

section

variable (hsound : Sound calls board state)

include hsound

/-- Without an owner file of a living call in the directory nobody possesses it. -/
theorem Sound.nobody
    (hfree : ∀ directory ∈ state.lock, ∀ file ∈ directory.owner, ¬ state.Live calls file.creator)
    (other : Nat) : ¬ state.Possesses calls other := by
  intro hpossesses
  obtain ⟨pid, number, hlock⟩ := hsound.owns hpossesses
  exact hfree _ hlock _ rfl hpossesses.1

variable {call attempt : Nat}

theorem sound_makeDirectory (hstage : state.stage call = .making attempt) :
    Sound calls board (makeDirectory calls state call attempt) := by
  unfold makeDirectory
  split
  · apply hsound.move_free state.made (.inl rfl) rfl (by simp)
    rw [hstage]
    rfl
  rename_i hnone
  apply hsound.move_free (state.made + 1)
  · exact .inr fun other _ => hsound.nobody (by simp [hnone]) other
  · split <;> rfl
  · intro round number
    split <;> simp
  rw [hstage]
  split <;> rfl

theorem sound_createOwner (hstage : state.stage call = .creating attempt) :
    Sound calls board (createOwner state call attempt) := by
  have hwrote : (state.stage call).wrote = false := by
    rw [hstage]
    rfl
  unfold createOwner
  split
  · exact hsound.move_free state.made (.inl rfl) rfl (by simp) hwrote.symm
  rename_i directory hlock
  split
  · exact hsound.move_free state.made (.inl rfl) rfl (by simp) hwrote.symm
  rename_i hnone
  apply hsound.move state.made
  · refine .inr fun other _ => hsound.nobody ?_ other
    intro found hfound file hfile
    cases hlock.symm.trans hfound
    simp [hnone] at hfile
  · intro round number heq
    cases heq
    rfl
  · intro _ hholds
    simp [Stage.holds] at hholds
  · simp
  · exact hwrote.symm

theorem sound_writeOwner {number : Nat}
    (hlive : state.Live calls call) (hstage : state.stage call = .writingOwner attempt number) :
    Sound calls board (writeOwner calls state call number) := by
  have hlock := hsound.opened call attempt number hlive hstage
  apply hsound.move state.made
  · refine .inr fun other hother hpossesses => hother ?_
    exact hsound.possesses_unique hpossesses ⟨hlive, .inr ⟨attempt, number, hstage⟩⟩
  · simp
  · intro _ _
    exact ⟨number, by simp [hlock]⟩
  · simp
  rw [hstage]
  rfl

theorem sound_judge (hstage : state.stage call = .judging attempt) : Sound calls board
    (judge calls state call attempt) := by
  have hwrote : (state.stage call).wrote = false := by
    rw [hstage]
    rfl
  unfold judge
  split
  · split
    · apply hsound.move_free state.made (.inl rfl)
      · split <;> rfl
      · intro round number
        split <;> simp
      rw [hwrote]
      split <;> rfl
    · exact hsound.move_free state.made (.inl rfl) rfl (by simp) hwrote.symm
  · exact hsound.move_free state.made (.inl rfl) rfl (by simp) hwrote.symm

theorem sound_renameAway (hstale : RenamesStale calls state (.advance call))
    (hstage : state.stage call = .renaming attempt) :
    Sound calls board (renameAway calls state call attempt) := by
  have hwrote : (state.stage call).wrote = false := by
    rw [hstage]
    rfl
  obtain ⟨hfree, hunwritten, hnot⟩ := afterAttempt_spec calls attempt
  unfold renameAway
  split
  · exact hsound.move_free state.made (.inl rfl) hfree hnot (hunwritten.trans hwrote.symm)
  apply hsound.move_free state.made
  · exact .inr fun other _ => hsound.nobody (hstale (by rw [hstage]; rfl)) other
  · rfl
  · simp
  · exact hwrote.symm

section

variable (hlive : state.Live calls call)
include hlive

/-- A step of a holder that keeps the lock. -/
theorem Sound.move_holding {stage : Stage T} (hholds : (state.stage call).holds = true)
    (hcurrent : ∀ tasks, stage = .writingBoard tasks → calls.mutate call state.board = some tasks)
    (hnot : ∀ attempt number, stage ≠ .writingOwner attempt number)
    (hwrote : stage.wrote = (state.stage call).wrote) :
    Sound calls board (state.moveTo call stage) := by
  apply hsound.move state.made (.inl rfl)
  · intro attempt number hstage
    exact absurd hstage (hnot attempt number)
  · intro _ _
    exact hsound.held call hlive hholds
  · exact hcurrent
  · exact hwrote

theorem sound_mutateRead
    (hstage : state.stage call = .acquired) : Sound calls board (mutateRead calls state call) := by
  have hholds : (state.stage call).holds = true := by
    rw [hstage]
    rfl
  have hwrote : (state.stage call).wrote = false := by
    rw [hstage]
    rfl
  unfold mutateRead
  split
  next tasks htasks =>
    apply hsound.move_holding hlive hholds
    · intro given hgiven
      rw [← Stage.writingBoard.inj hgiven]
      exact htasks
    · simp
    · exact hwrote.symm
  · exact hsound.move_holding hlive hholds (by simp) (by simp) hwrote.symm

theorem sound_readForRelease {wrote : Bool} (hstage : state.stage call = .releasing wrote) :
    Sound calls board (readForRelease calls state call wrote) := by
  have hholds : (state.stage call).holds = true := by
    rw [hstage]
    rfl
  have hwrote : (state.stage call).wrote = wrote := by
    rw [hstage]
    rfl
  unfold readForRelease
  split
  · split
    · exact hsound.move_holding hlive hholds (by simp) (by simp) hwrote.symm
    · exact hsound.move_free state.made (.inl rfl) rfl (by simp) hwrote.symm
  · exact hsound.move_holding hlive hholds (by simp) (by simp) hwrote.symm

/-- The removal of the release. -/
theorem sound_removing {wrote : Bool} (hstage : state.stage call = .removing wrote) :
    Sound calls board ({ state with lock := none }.moveTo call (.ended wrote)) := by
  apply hsound.move_free state.made
  · refine .inr fun other hother hpossesses => hother ?_
    apply hsound.possesses_unique hpossesses ⟨hlive, .inl ?_⟩
    rw [hstage]
    rfl
  · rfl
  · simp
  rw [hstage]
  rfl

theorem sound_writeBoard {tasks : T} (hstage : state.stage call = .writingBoard tasks) :
    Sound calls board
      ({ state with board := tasks, log := state.log ++ [call] }.moveTo call (.releasing true)) := by
  have hholds : (state.stage call).holds = true := by
    rw [hstage]
    rfl
  have hbefore (other : Nat) (hother : other ≠ call) :
      ({ state with board := tasks, log := state.log ++ [call] }.moveTo call (.releasing true)).stage other =
        state.stage other := by
    simp [State.moveTo, hother]
  have hafter :
      ({ state with board := tasks, log := state.log ++ [call] }.moveTo call (.releasing true)).stage call =
        .releasing true := by
    simp [State.moveTo]
  have hnew : call ∉ state.log := by
    rw [hsound.logged call, hstage]
    simp [Stage.wrote]
  refine ⟨?_, ?_, ?_, ?_, ?_, ?_⟩
  · intro other attempt number hother hopened
    by_cases hsame : other = call
    · subst hsame
      simp [hafter] at hopened
    · exact hsound.opened other attempt number hother (by rwa [hbefore other hsame] at hopened)
  · intro other hother hheld
    by_cases hsame : other = call
    · subst hsame
      exact hsound.held other hlive hholds
    · exact hsound.held other hother (by rwa [hbefore other hsame] at hheld)
  · -- nobody else is about to write the board
    intro other given hother hwriting
    by_cases hsame : other = call
    · subst hsame
      simp [hafter] at hwriting
    rw [hbefore other hsame] at hwriting
    refine absurd (hsound.possesses_unique ⟨hother, .inl ?_⟩ ⟨hlive, .inl hholds⟩) hsame
    rw [hwriting]
    rfl
  · show (state.log ++ [call]).foldlM _ board = some tasks
    rw [List.foldlM_append, hsound.applied]
    simpa using hsound.current call tasks hlive hstage
  · show (state.log ++ [call]).Nodup
    rw [List.nodup_append]
    refine ⟨hsound.once, by simp, ?_⟩
    intro other hother last hlast
    rw [List.mem_singleton] at hlast
    rintro rfl
    exact hnew (hlast ▸ hother)
  intro other
  show other ∈ state.log ++ [call] ↔ _
  by_cases hsame : other = call
  · subst hsame
    simp [hafter, Stage.wrote]
  rw [hbefore other hsame, ← hsound.logged other]
  simp [hsame]

theorem sound_advance (hstale : RenamesStale calls state (.advance call)) {next : State T}
    (hnext : advance calls state call = some next) : Sound calls board next := by
  have hidle (attempt : Nat) (hwrote : (state.stage call).wrote = false) :
      Sound calls board (state.moveTo call (afterAttempt calls attempt)) := by
    obtain ⟨hfree, hunwritten, hnot⟩ := afterAttempt_spec calls attempt
    exact hsound.move_free state.made (.inl rfl) hfree hnot (hunwritten.trans hwrote.symm)
  unfold advance at hnext
  split at hnext
  next attempt hstage =>
    cases hnext
    exact sound_makeDirectory hsound hstage
  next attempt hstage =>
    cases hnext
    apply hsound.move_free state.made (.inl rfl)
    · split <;> rfl
    · intro round number
      split <;> simp
    rw [hstage]
    split <;> rfl
  next attempt hstage =>
    cases hnext
    exact sound_createOwner hsound hstage
  next attempt number hstage =>
    cases hnext
    exact sound_writeOwner hsound hlive hstage
  next attempt hstage =>
    cases hnext
    exact sound_judge hsound hstage
  next attempt hstage =>
    cases hnext
    exact hidle attempt (by rw [hstage]; rfl)
  next attempt hstage =>
    cases hnext
    exact sound_renameAway hsound hstale hstage
  next attempt hstage =>
    cases hnext
    exact hidle attempt (by rw [hstage]; rfl)
  next hstage =>
    cases hnext
    exact sound_mutateRead hsound hlive hstage
  next tasks hstage =>
    cases hnext
    exact sound_writeBoard hsound hlive hstage
  next wrote hstage =>
    cases hnext
    exact sound_readForRelease hsound hlive hstage
  next wrote hstage =>
    cases hnext
    exact sound_removing hsound hlive hstage
  · cases hnext

end

/-- A crash takes calls from the living and changes nothing else. -/
theorem sound_crash (process : Nat) :
    Sound calls board { state with crashed := process :: state.crashed } := by
  have hlive (call : Nat) (hlive : State.Live calls { state with crashed := process :: state.crashed } call) :
      state.Live calls call := fun hcrashed => hlive (List.mem_cons_of_mem process hcrashed)
  refine ⟨?_, ?_, ?_, hsound.applied, hsound.once, hsound.logged⟩
  · exact fun call attempt number hcall => hsound.opened call attempt number (hlive call hcall)
  · exact fun call hcall => hsound.held call (hlive call hcall)
  · exact fun call tasks hcall => hsound.current call tasks (hlive call hcall)

end

theorem sound_step (state : State T) (input : Input) (next : State T)
    (hsound : Sound calls board state)
    (hstale : RenamesStale calls state input) (hnext : step calls state input = some next) :
    Sound calls board next := by
  cases input with
  | advance call =>
    simp only [step] at hnext
    split at hnext
    next hlive =>
      exact sound_advance hsound hlive hstale hnext
    · cases hnext
  | leave call =>
    simp only [step] at hnext
    split at hnext
    next hlive =>
      split at hnext
      next hstage =>
        cases hnext
        exact hsound.move_holding hlive (by rw [hstage]; rfl) (by simp) (by simp) (by rw [hstage]; rfl)
      · cases hnext
    · cases hnext
  | fail call =>
    simp only [step] at hnext
    split at hnext
    next hlive =>
      split at hnext
      next hstage =>
        cases hnext
        exact hsound.move_free state.made (.inl rfl) rfl (by simp) (by rw [hstage]; rfl)
      next hstage =>
        cases hnext
        exact hsound.move_holding hlive (by rw [hstage]; rfl) (by simp) (by simp) (by rw [hstage]; rfl)
      · cases hnext
    · cases hnext
  | crash process =>
    cases hnext
    exact sound_crash hsound process

/-! ### Exclusion -/

/-- In every state of a run whose renames take no living call's lock away, at most one living
call holds the lock, a release removes the lock of its own call, and the board is what the
completed mutations made of it one after the other, each once. -/
theorem lock_excludes (calls : Calls T) (board : T) {inputs front : List Input} {state : State T}
    (hstale : EveryStep (step calls) (RenamesStale calls) (start board) inputs) (hfront : front <+: inputs)
    (hrun : run (step calls) (start board) front = some state) :
    (∀ call other, state.Live calls call → state.Live calls other → (state.stage call).holds = true →
      (state.stage other).holds = true → call = other) ∧
    (∀ call wrote, state.Live calls call → state.stage call = .removing wrote →
      state.Owns call (some (calls.process call))) ∧
    state.log.foldlM (fun tasks call => calls.mutate call tasks) board = some state.board ∧
    state.log.Nodup ∧ ∀ call, call ∈ state.log ↔ (state.stage call).wrote = true := by
  have hsound : Sound calls board state :=
    everyStep_invariant sound_step (sound_start calls board) hstale hfront hrun
  refine ⟨?_, ?_, hsound.applied, hsound.once, hsound.logged⟩
  · intro call other hcall hother hholds hholds'
    exact hsound.possesses_unique ⟨hcall, .inl hholds⟩ ⟨hother, .inl hholds'⟩
  · intro call wrote hlive hstage
    exact hsound.held call hlive (by rw [hstage]; rfl)

/-! ### A fresh lock taken for a stale one -/

/-- Two processes with one call each, that adds its number to the board. -/
def exampleCalls : Calls (List Nat) := ⟨boardLock, fun call => call, fun call tasks => some (tasks ++ [call])⟩

/-- The first process crashes with the lock, and the second takes it over and adds its number. -/
def exampleTakeover : List Input :=
  List.replicate 5 (Input.advance 0) ++ [Input.crash 0] ++ List.replicate 12 (Input.advance 1)

/-- The second process finds the first one's owner file still empty. -/
def exampleEmptyOwner : List Input :=
  List.replicate 3 (Input.advance 0) ++ List.replicate 4 (Input.advance 1) ++ [Input.advance 0] ++
    List.replicate 4 (Input.advance 1)

theorem lock_excludes_takeover :
    EveryStep (step exampleCalls) (RenamesStale exampleCalls) (start []) exampleTakeover ∧
      ∃ state, run (step exampleCalls) (start []) exampleTakeover = some state ∧
        (state.stage 1).wrote = true ∧ 1 ∈ state.log ∧
        state.log.foldlM (fun tasks call => exampleCalls.mutate call tasks) [] = some state.board := by
  have hstale : EveryStep (step exampleCalls) (RenamesStale exampleCalls) (start []) exampleTakeover := by
    decide
  refine ⟨hstale, _, rfl, by decide, ?_⟩
  have hall := lock_excludes exampleCalls [] hstale (List.prefix_refl _) rfl
  exact ⟨(hall.2.2.2.2 1).2 (by decide), hall.2.2.1⟩

/-- Both hold the lock, and of their two mutations one is lost. -/
theorem fresh_lock_taken :
    (∃ state, run (step exampleCalls) (start []) exampleEmptyOwner = some state ∧
      state.Live exampleCalls 0 ∧ state.Live exampleCalls 1 ∧ exampleCalls.process 0 ≠ exampleCalls.process 1 ∧
      (state.stage 0).holds = true ∧ (state.stage 1).holds = true) ∧
    ∃ state, run (step exampleCalls) (start [])
        (exampleEmptyOwner ++ [Input.advance 0, Input.advance 1, Input.advance 0, Input.advance 1]) = some state ∧
      state.log = [0, 1] ∧ state.board = [1] := by
  exact ⟨⟨_, rfl, by decide, by decide, by decide, by decide, by decide⟩, _, rfl, by decide, by decide⟩

end Hummin.DirectoryLock
