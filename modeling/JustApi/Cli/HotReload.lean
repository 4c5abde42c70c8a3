import Mathlib.Data.List.Basic
import JustApi.Lib.Run

/-! # Hot reload

The file watcher, the task that passes its notices on, and the loop that restarts the server
for them. Both channels are bounded, and a notice that finds the first one full is dropped;
still no change is missed. -/
namespace JustApi.Cli.HotReload
open JustApi.Lib.Run

/-! ## Which changes count -/

/-- A path as its components. -/
abbrev Path := List String

def defaultWatchExtensions : List String := ["py", "toml", "yaml", "yml", "json", "env"]

def excludedDirs : List String :=
  ["__pycache__", ".git", "target", "node_modules", ".venv", ".mypy_cache", ".pytest_cache",
    ".ruff_cache", "__pypackages__"]

def shouldIgnorePath (path : Path) : Bool := path.any (excludedDirs.contains ·)

/-- `Path::extension` of a file name: what comes after its last dot, if that is not the first
character. -/
def extension (name : String) : Option String :=
  let cs := name.toList
  let after := (cs.reverse.takeWhile (· ≠ '.')).reverse
  if name = ".." ∨ cs.length ≤ after.length + 1 then none else some (String.ofList after)

def hasWatchedExtension (path : Path) (extensions : List String) : Bool :=
  ((path.getLast?.bind extension).map extensions.contains).getD false

/-- `strip_prefix('.')` -/
def stripDot (ext : String) : String :=
  match ext.toList with
  | '.' :: rest => String.ofList rest
  | _ => ext

def watchedExtensions (extra : List String) : List String :=
  extra.foldl (fun extensions ext =>
    if extensions.contains (stripDot ext) then extensions else extensions ++ [stripDot ext])
    defaultWatchExtensions

/-- The first event of a batch that counts. -/
def noticed (extensions : List String) (events : List Path) : Option Path :=
  events.find? fun path => !shouldIgnorePath path && hasWatchedExtension path extensions

/-- A file that is nothing but an extension has none. -/
example : hasWatchedExtension ["app", ".env"] (watchedExtensions []) = false := by decide

/-! ## The tasks -/

inductive Forwarder where
  | idle
  | sending
  deriving DecidableEq, Repr

/-- The task that waits for a reload beside the server. -/
inductive Waiter where
  | waiting
  | took
  | woke
  deriving DecidableEq, Repr

/-- The task that waits for Ctrl+C: it sets the flag, then cancels the token. -/
inductive CtrlC where
  | listening
  | flagged
  | cancelled
  deriving DecidableEq, Repr

inductive Stage where
  | serving
  | stopped
  | draining
  | exited
  deriving DecidableEq, Repr

/-- `changes` is how many batches have counted, `started` how many of them there were when the
present server was built. -/
structure World where
  changes : Nat
  notices : List String
  forwarder : Forwarder
  reload : Bool
  stage : Stage
  token : Bool
  waiter : Waiter
  ctrlC : CtrlC
  started : Nat
  restarts : Nat
  deriving DecidableEq, Repr

inductive Event where
  | batch (events : List Path)
  | forward
  | push
  | take
  | wake
  | ctrlC
  | interrupt
  | stop
  | serverFails
  | bindFails
  | recover
  | restart
  deriving DecidableEq, Repr

def World.new : World := ⟨0, [], .idle, false, .serving, false, .waiting, .listening, 0, 0⟩

/-- The capacity of the first channel; that of the second is one. -/
def noticeCapacity : Nat := 16

variable {extensions : List String} {w w' : World} {event : Event}

def exec (extensions : List String) (w : World) (event : Event) : Except Unit World :=
  if w.stage = .exited then .error () else
  match event with
  | .batch events =>
    match noticed extensions events with
    | none => .ok w
    | some path =>
      -- `try_send`
      if w.notices.length < noticeCapacity then
        .ok { w with changes := w.changes + 1,
                     notices := w.notices ++ [path.getLast?.getD "<unknown>"] }
      else .ok { w with changes := w.changes + 1 }
  | .forward =>
    match w.notices with
    | [] => .error ()
    | _ :: rest =>
      if w.forwarder = .idle then .ok { w with notices := rest, forwarder := .sending }
      else .error ()
  | .push =>
    if w.forwarder = .sending ∧ w.reload = false then
      .ok { w with forwarder := .idle, reload := true }
    else .error ()
  | .take =>
    if w.stage ≠ .draining ∧ w.waiter = .waiting ∧ w.reload = true then
      .ok { w with reload := false, token := true, waiter := .took }
    else .error ()
  | .wake =>
    if w.waiter = .waiting ∧ w.token = true then .ok { w with waiter := .woke } else .error ()
  | .ctrlC => if w.ctrlC = .listening then .ok { w with ctrlC := .flagged } else .error ()
  | .interrupt =>
    if w.ctrlC = .flagged then .ok { w with ctrlC := .cancelled, token := true } else .error ()
  | .stop =>
    if w.stage = .serving ∧ w.token = true then .ok { w with stage := .stopped } else .error ()
  | .serverFails => if w.stage = .serving then .ok { w with stage := .stopped } else .error ()
  | .bindFails => if w.stage = .serving then .ok { w with stage := .exited } else .error ()
  | .recover =>
    if w.stage = .stopped ∧ w.waiter ≠ .waiting then
      .ok { w with stage := if w.ctrlC = .listening then .draining else .exited }
    else .error ()
  | .restart =>
    -- the tasks of the last turn are left behind, with their token and their flag
    if w.stage = .draining then
      .ok { w with stage := .serving, token := false, waiter := .waiting, ctrlC := .listening,
                   started := w.changes, restarts := w.restarts + 1 }
    else .error ()

def Step (extensions : List String) (w : World) (event : Event) (w' : World) : Prop :=
  exec extensions w event = .ok w'

/-- What a step can do. -/
inductive Move (extensions : List String) (w : World) : Event → World → Prop where
  | ignored {events : List Path} (hnone : noticed extensions events = none) :
      Move extensions w (.batch events) w
  | notice {events : List Path} {name : String} :
      Move extensions w (.batch events)
        { w with changes := w.changes + 1, notices := w.notices ++ [name] }
  | dropped {events : List Path} (hfull : noticeCapacity ≤ w.notices.length) :
      Move extensions w (.batch events) { w with changes := w.changes + 1 }
  | forward {name : String} {rest : List String} (hnotices : w.notices = name :: rest)
      (hidle : w.forwarder = .idle) :
      Move extensions w .forward { w with notices := rest, forwarder := .sending }
  | push (hsending : w.forwarder = .sending) (hempty : w.reload = false) :
      Move extensions w .push { w with forwarder := .idle, reload := true }
  | take (hstage : w.stage ≠ .draining) (hwaiting : w.waiter = .waiting)
      (hreload : w.reload = true) :
      Move extensions w .take { w with reload := false, token := true, waiter := .took }
  | wake (hwaiting : w.waiter = .waiting) (htoken : w.token = true) :
      Move extensions w .wake { w with waiter := .woke }
  | ctrlC (hlistening : w.ctrlC = .listening) :
      Move extensions w .ctrlC { w with ctrlC := .flagged }
  | interrupt (hflagged : w.ctrlC = .flagged) :
      Move extensions w .interrupt { w with ctrlC := .cancelled, token := true }
  | stop (hserving : w.stage = .serving) (htoken : w.token = true) :
      Move extensions w .stop { w with stage := .stopped }
  | serverFails (hserving : w.stage = .serving) :
      Move extensions w .serverFails { w with stage := .stopped }
  | bindFails (hserving : w.stage = .serving) :
      Move extensions w .bindFails { w with stage := .exited }
  | drain (hstopped : w.stage = .stopped) (hwaiter : w.waiter ≠ .waiting)
      (hlistening : w.ctrlC = .listening) : Move extensions w .recover { w with stage := .draining }
  | exit (hstopped : w.stage = .stopped) (hctrlC : w.ctrlC ≠ .listening) :
      Move extensions w .recover { w with stage := .exited }
  | restart (hdraining : w.stage = .draining) :
      Move extensions w .restart
        { w with stage := .serving, token := false, waiter := .waiting, ctrlC := .listening,
                 started := w.changes, restarts := w.restarts + 1 }

theorem exec_move (h : Step extensions w event w') : Move extensions w event w' := by
  unfold Step exec at h
  split at h
  · cases h
  cases event with
  | batch events =>
    dsimp only at h
    split at h
    · cases h
      exact .ignored ‹_›
    · split at h
      · cases h
        exact .notice
      · rename_i hfull
        cases h
        exact .dropped (Nat.le_of_not_lt hfull)
  | forward =>
    dsimp only at h
    split at h
    · cases h
    · rename_i hnotices
      split at h
      · cases h
        exact .forward hnotices ‹_›
      · cases h
  | push =>
    dsimp only at h
    split at h
    · rename_i hguard
      cases h
      exact .push hguard.1 hguard.2
    · cases h
  | take =>
    dsimp only at h
    split at h
    · rename_i hguard
      cases h
      exact .take hguard.1 hguard.2.1 hguard.2.2
    · cases h
  | wake =>
    dsimp only at h
    split at h
    · rename_i hguard
      cases h
      exact .wake hguard.1 hguard.2
    · cases h
  | ctrlC =>
    dsimp only at h
    split at h
    · cases h
      exact .ctrlC ‹_›
    · cases h
  | interrupt =>
    dsimp only at h
    split at h
    · cases h
      exact .interrupt ‹_›
    · cases h
  | stop =>
    dsimp only at h
    split at h
    · rename_i hguard
      cases h
      exact .stop hguard.1 hguard.2
    · cases h
  | serverFails =>
    dsimp only at h
    split at h
    · cases h
      exact .serverFails ‹_›
    · cases h
  | bindFails =>
    dsimp only at h
    split at h
    · cases h
      exact .bindFails ‹_›
    · cases h
  | recover =>
    dsimp only at h
    split at h
    · rename_i hguard
      cases h
      split
      · exact .drain hguard.1 hguard.2 ‹_›
      · exact .exit hguard.1 ‹_›
    · cases h
  | restart =>
    dsimp only at h
    split at h
    · cases h
      exact .restart ‹_›
    · cases h

/-! ## No change is missed -/

/-- The notices that are under way. -/
def World.queued (w : World) : Nat :=
  w.notices.length + (if w.forwarder = .sending then 1 else 0) + w.reload.toNat

structure Sound (w : World) : Prop where
  started : w.started ≤ w.changes
  /-- A server that is not up to date, and goes on, has a notice under way. -/
  noticed : w.stage = .serving → w.token = false → w.started < w.changes → 0 < w.queued
  token : w.token = true ↔ w.waiter = .took ∨ w.ctrlC = .cancelled
  woke : w.waiter = .woke → w.ctrlC = .cancelled
  draining : w.stage = .draining → w.waiter = .took
  /-- Every restart is for a change of its own. -/
  paid : w.restarts + w.queued + (if w.waiter = .took then 1 else 0) ≤ w.changes

theorem sound_new : Sound .new where
  started := Nat.le_refl 0
  noticed _ _ h := absurd h (Nat.lt_irrefl 0)
  token := by decide
  woke h := by cases h
  draining h := by cases h
  paid := Nat.le_refl 0

theorem Sound.move (h : Sound w) (hmove : Move extensions w event w') : Sound w' := by
  cases hmove with
  | ignored => exact h
  | notice =>
    refine ⟨Nat.le_succ_of_le h.started, fun _ _ _ => ?_, h.token, h.woke, h.draining, ?_⟩
    · simp only [World.queued, List.length_append, List.length_singleton]
      omega
    · have hpaid := h.paid
      simp only [World.queued, List.length_append, List.length_singleton] at hpaid ⊢
      omega
  | dropped hfull =>
    have hqueued : 0 < World.queued { w with changes := w.changes + 1 } := by
      have hpos : 0 < noticeCapacity := by decide
      simp only [World.queued]
      omega
    exact ⟨Nat.le_succ_of_le h.started, fun _ _ _ => hqueued, h.token, h.woke, h.draining,
      Nat.le_succ_of_le h.paid⟩
  | @forward name rest hnotices hidle =>
    have hqueued : World.queued { w with notices := rest, forwarder := .sending } = w.queued := by
      simp [World.queued, hnotices, hidle]
    refine ⟨h.started, ?_, h.token, h.woke, h.draining, ?_⟩
    · rw [hqueued]
      exact h.noticed
    · rw [hqueued]
      exact h.paid
  | push hsending hempty =>
    have hqueued : World.queued { w with forwarder := .idle, reload := true } = w.queued := by
      simp [World.queued, hsending, hempty]
    refine ⟨h.started, ?_, h.token, h.woke, h.draining, ?_⟩
    · rw [hqueued]
      exact h.noticed
    · rw [hqueued]
      exact h.paid
  | take hstage hwaiting hreload =>
    refine ⟨h.started, fun _ htoken => ?_, by simp, fun hwoke => ?_, fun _ => rfl, ?_⟩
    · cases htoken
    · cases hwoke
    · have hpaid := h.paid
      simp [World.queued, hreload, hwaiting] at hpaid ⊢
      omega
  | wake hwaiting htoken =>
    have hcancelled : w.ctrlC = .cancelled := by
      rcases h.token.mp htoken with htook | hcancelled
      · exact absurd (hwaiting.symm.trans htook) (by decide)
      · exact hcancelled
    refine ⟨h.started, h.noticed, by simp [htoken, hcancelled], fun _ => hcancelled,
      fun hdraining => ?_, ?_⟩
    · exact absurd (hwaiting.symm.trans (h.draining hdraining)) (by decide)
    · have hpaid := h.paid
      simp only [hwaiting, reduceCtorEq, if_false] at hpaid ⊢
      exact hpaid
  | ctrlC hlistening =>
    refine ⟨h.started, h.noticed, ?_, fun hwoke => ?_, h.draining, h.paid⟩
    · simpa [hlistening] using h.token
    · exact absurd (hlistening.symm.trans (h.woke hwoke)) (by decide)
  | interrupt hflagged =>
    refine ⟨h.started, fun _ htoken => ?_, by simp, fun _ => rfl, h.draining, h.paid⟩
    cases htoken
  | stop hserving | serverFails hserving =>
    refine ⟨h.started, fun hstage => ?_, h.token, h.woke, fun hstage => ?_, h.paid⟩ <;>
      cases hstage
  | bindFails hserving | exit hstopped =>
    refine ⟨h.started, fun hstage => ?_, h.token, h.woke, fun hstage => ?_, h.paid⟩ <;>
      cases hstage
  | drain hstopped hwaiter hlistening =>
    have htook : w.waiter = .took := by
      cases hcase : w.waiter with
      | waiting => exact absurd hcase hwaiter
      | took => rfl
      | woke => exact absurd (hlistening.symm.trans (h.woke hcase)) (by decide)
    refine ⟨h.started, fun hstage => ?_, h.token, h.woke, fun _ => htook, h.paid⟩
    cases hstage
  | restart hdraining =>
    have hpaid := h.paid
    rw [h.draining hdraining, if_pos rfl] at hpaid
    refine ⟨Nat.le_refl _, fun _ _ hlt => absurd hlt (Nat.lt_irrefl _), by simp, fun hwoke => ?_,
      fun hstage => ?_, ?_⟩
    · cases hwoke
    · cases hstage
    · simp only [World.queued, reduceCtorEq, if_false] at hpaid ⊢
      omega

theorem sound_of_run {tr : List (Event × World)} (hrun : Along (Step extensions) .new tr) :
    ∀ w ∈ visited .new tr, Sound w :=
  hrun.invariant (fun _ _ _ h hstep => h.move (exec_move hstep)) sound_new

/-- In every state of the watcher and the server: a server that goes on and is older than a
change has a notice under way, and there is never a restart without a change. -/
theorem no_change_missed {tr : List (Event × World)} (hrun : Along (Step extensions) .new tr) :
    ∀ w ∈ visited .new tr,
      (w.stage = .serving → w.token = false → w.started < w.changes → 0 < w.queued) ∧
        w.restarts ≤ w.changes := by
  intro w hw
  have h := sound_of_run hrun w hw
  have hpaid := h.paid
  exact ⟨h.noticed, by omega⟩

/-! ## Coming to rest -/

/-- The steps that nothing from outside is needed for. -/
def Event.Working : Event → Prop
  | .forward | .push | .take | .wake | .interrupt | .stop | .recover | .restart => True
  | .batch _ | .ctrlC | .serverFails | .bindFails => False

instance (event : Event) : Decidable event.Working :=
  match event with
  | .forward | .push | .take | .wake | .interrupt | .stop | .recover | .restart => .isTrue trivial
  | .batch _ | .ctrlC | .serverFails | .bindFails => .isFalse id

def Waiter.work : Waiter → Nat
  | .waiting => 1
  | .took => 4
  | .woke => 0

def Stage.work : Stage → Nat
  | .serving => 2
  | .stopped => 1
  | .draining | .exited => 0

def World.work (w : World) : Nat :=
  6 * w.notices.length + (if w.forwarder = .sending then 5 else 0) + 4 * w.reload.toNat +
    w.waiter.work + w.stage.work + (if w.ctrlC = .flagged then 1 else 0)

theorem Move.work_lt (hmove : Move extensions w event w') (h : Sound w)
    (hworking : event.Working) : w'.work < w.work := by
  cases hmove with
  | ignored | notice | dropped | ctrlC | serverFails | bindFails => exact hworking.elim
  | forward hnotices hidle =>
    simp [World.work, hnotices, hidle]
    omega
  | push hsending hempty =>
    simp [World.work, hsending, hempty]
  | take hstage hwaiting hreload =>
    simp [World.work, hwaiting, hreload, Waiter.work]
  | wake hwaiting htoken =>
    simp [World.work, hwaiting, Waiter.work]
  | interrupt hflagged =>
    simp [World.work, hflagged]
  | stop hserving htoken =>
    simp [World.work, hserving, Stage.work]
  | drain hstopped =>
    simp [World.work, hstopped, Stage.work]
  | exit hstopped =>
    simp [World.work, hstopped, Stage.work]
  | restart hdraining =>
    simp [World.work, hdraining, h.draining hdraining, Stage.work, Waiter.work]
    split <;> omega

def AtRest (extensions : List String) (w : World) : Prop :=
  ∀ event w', event.Working → ¬ Step extensions w event w'

/-- The process is over, or its server is up to date, or the server has failed and the loop
waits for a change. -/
def Settled (w : World) : Prop :=
  w.stage = .exited ∨
    (w.stage = .serving ∧ w.started = w.changes ∨ w.stage = .stopped ∧ w.waiter = .waiting) ∧
      w.queued = 0 ∧ w.token = false ∧ w.ctrlC = .listening

theorem AtRest.stuck (h : AtRest extensions w) (event : Event) (hworking : event.Working) :
    exec extensions w event = .error () := by
  cases hexec : exec extensions w event with
  | error _ => rfl
  | ok w' => exact absurd hexec (h event w' hworking)

/-- A waiter that waits has nothing to wait for. -/
theorem AtRest.queues (h : AtRest extensions w) (hexit : w.stage ≠ .exited)
    (hdraining : w.stage ≠ .draining) (hwaiting : w.waiter = .waiting) :
    w.queued = 0 ∧ w.token = false := by
  have hreload : w.reload = false := by
    cases hcase : w.reload with
    | false => rfl
    | true => simpa [exec, hexit, hdraining, hwaiting, hcase] using h.stuck .take trivial
  have hidle : w.forwarder = .idle := by
    cases hcase : w.forwarder with
    | idle => rfl
    | sending => simpa [exec, hexit, hcase, hreload] using h.stuck .push trivial
  have hnotices : w.notices = [] := by
    cases hcase : w.notices with
    | nil => rfl
    | cons name rest => simpa [exec, hexit, hcase, hidle] using h.stuck .forward trivial
  have htoken : w.token = false := by
    cases hcase : w.token with
    | false => rfl
    | true => simpa [exec, hexit, hwaiting, hcase] using h.stuck .wake trivial
  exact ⟨by simp [World.queued, hnotices, hidle, hreload], htoken⟩

theorem AtRest.settled (h : AtRest extensions w) (hsound : Sound w) : Settled w := by
  by_cases hexit : w.stage = .exited
  · exact .inl hexit
  have hflagged : w.ctrlC ≠ .flagged := by
    intro hflagged
    simpa [exec, hexit, hflagged] using h.stuck .interrupt trivial
  have hdraining : w.stage ≠ .draining := by
    intro hdraining
    simpa [exec, hdraining] using h.stuck .restart trivial
  have hwaiting : w.waiter = .waiting := by
    by_contra hwaiter
    -- the token is cancelled, so the server stops and the loop goes on
    have htoken : w.token = true := by
      cases hcase : w.waiter with
      | waiting => exact absurd hcase hwaiter
      | took => exact hsound.token.mpr (.inl hcase)
      | woke => exact hsound.token.mpr (.inr (hsound.woke hcase))
    cases hstage : w.stage with
    | exited => exact hexit hstage
    | draining => exact hdraining hstage
    | serving => simpa [exec, hstage, htoken] using h.stuck .stop trivial
    | stopped => simpa [exec, hstage, hwaiter] using h.stuck .recover trivial
  obtain ⟨hqueued, htoken⟩ := h.queues hexit hdraining hwaiting
  have hlistening : w.ctrlC = .listening := by
    cases hcase : w.ctrlC with
    | listening => rfl
    | flagged => exact absurd hcase hflagged
    | cancelled => exact absurd ((hsound.token.mpr (.inr hcase)).symm.trans htoken) (by decide)
  refine .inr ⟨?_, hqueued, htoken, hlistening⟩
  cases hstage : w.stage with
  | exited => exact absurd hstage hexit
  | draining => exact absurd hstage hdraining
  | stopped => exact .inr ⟨rfl, hwaiting⟩
  | serving =>
    refine .inl ⟨rfl, Nat.le_antisymm hsound.started (Nat.le_of_not_lt fun hlt => ?_)⟩
    exact absurd (hsound.noticed hstage htoken hlt) (by omega)

/-- From every state of the watcher and the server: what they do by themselves is bounded, and
then the server that runs has been started after the last change, unless the process is over
or the server has failed. -/
theorem reload_settles {tr tr' : List (Event × World)} (hrun : Along (Step extensions) .new tr)
    (hw : w ∈ visited .new tr)
    (hrun' : Along (fun w event w' => event.Working ∧ Step extensions w event w') w tr') :
    tr'.length ≤ w.work ∧ (AtRest extensions (last w tr') → Settled (last w tr')) := by
  have hstep : ∀ w event w', Sound w → event.Working ∧ Step extensions w event w' → Sound w' :=
    fun _ _ _ h hs => h.move (exec_move hs.2)
  have hsound := sound_of_run hrun w hw
  constructor
  · have hlength := hrun'.length_add_le World.work
      (fun s event t h hs => ⟨hstep s event t h hs, (exec_move hs.2).work_lt h hs.1⟩) hsound
    exact Nat.le_trans (Nat.le_add_right _ _) hlength
  · intro hrest
    exact hrest.settled (hrun'.invariant hstep hsound _ (last_mem_visited w tr'))

/-- Two changes during a restart; a file of a cache does not count. -/
def twoChanges : List Event :=
  [.batch [["app", "__pycache__", "a.py"]], .batch [["app", "main.py"]], .forward, .push, .take,
    .stop, .recover, .batch [["app", "main.py"]], .batch [["config.toml"]], .forward, .restart]

theorem no_change_missed_twoChanges :
    let w := final (exec (watchedExtensions [])) .new twoChanges
    (w.changes, w.started, w.restarts) = (3, 3, 1) ∧ w.restarts ≤ w.changes := by
  intro w
  exact ⟨by decide +kernel, (no_change_missed (along_replay (exec (watchedExtensions [])) .new
    twoChanges) w (final_mem_visited _ _ _)).2⟩

theorem reload_settles_twoChanges :
    let w := final (exec (watchedExtensions [])) .new twoChanges
    let rest := replay (exec (watchedExtensions [])) w
      [.push, .take, .stop, .recover, .restart, .forward, .push, .take, .stop, .recover, .restart]
    rest.length = 11 ∧ rest.length ≤ w.work := by
  intro w rest
  refine ⟨by decide +kernel, (reload_settles (along_replay (exec (watchedExtensions [])) .new
    twoChanges) (final_mem_visited _ _ _) ?_).1⟩
  exact along_replay_labels (exec (watchedExtensions [])) (P := Event.Working) w _ (by decide)

end JustApi.Cli.HotReload
