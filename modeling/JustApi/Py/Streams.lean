import Mathlib.Data.List.Induction
import JustApi.Lib.Run
import JustApi.Lib.Channels
import JustApi.Core.QueryString

/-! # Streamed responses

The generator of a handler runs in a coroutine that sends what it yields into a channel
without a bound; the body of the response is polled from the other end. The two run on
different threads, and the client may be gone at any time. -/
namespace JustApi.Py.Streams
open JustApi.Lib.Run JustApi.Lib.Channels
open JustApi.Core.Http (Bytes)
open JustApi.Core.QueryString (asBytes)

/-- What a `StreamSender` sends: bytes, or an error that ends the body. -/
abbrev Message := Except String Bytes

/-- What a coroutine sends before the items, for an item and after them. What it raises for
an item becomes the last message. -/
structure Pump (Item : Type) where
  opening : List Bytes
  item : (first : Bool) → Item → Except String (List Bytes)
  closing : List Bytes

/-! ## The coroutines -/

/-- What the generator of a `TokenStreamResponse` yields. `other` is something that
`sender.send` does not take. -/
inductive Chunk where
  | str (s : String)
  | bytes (b : Bytes)
  | other (error : String)
  deriving DecidableEq, Repr

def pumpStream : Pump Chunk where
  opening := []
  item _ chunk := match chunk with
    | .str s => .ok [asBytes s]
    | .bytes b => .ok [b]
    | .other error => .error error
  closing := []

section Validated

variable {Item : Type} (dumps : Item → Except String String)
  (validate : String → Except String (List String)) (mode : String)

/-- The text of an item that the schema accepts. -/
def checked (x : Item) : Except String String := do
  let text ← dumps x
  match ← validate text with
  | [] => .ok text
  | errors => .error ("validation failed: " ++ "; ".intercalate errors)

def pumpValidatedStream : Pump Item where
  opening := if mode = "array" then [asBytes "["] else []
  item first x := (checked dumps validate x).map fun text =>
    if mode = "array" then (if first then [] else [asBytes ","]) ++ [asBytes text]
    else [asBytes (text ++ "\n")]
  closing := if mode = "array" then [asBytes "]"] else []

end Validated

/-! ## The two ends -/

/-- How a generator ends: it is exhausted, it raises an `Exception`, or it raises something
that is none, a `CancelledError` for one. -/
inductive Ending where
  | stop
  | raised (message : String)
  | cancelled
  deriving DecidableEq, Repr

/-- `refused` is a coroutine that could not be given to the event loop. -/
inductive Stage where
  | scheduled
  | running
  | finished
  | refused
  deriving DecidableEq, Repr

/-- What polling the body has come to. -/
inductive Body where
  | polled
  | ended
  | failed (message : String)
  deriving DecidableEq, Repr

/-- `items` is what the generator has yielded, `pending` what the coroutine sends before it
asks for the next item. -/
structure World (Item : Type) where
  stage : Stage
  items : List Item
  ending : Option Ending
  pending : List Message
  channel : Channel Message
  body : Body
  dropped : Bool

inductive Event (Item : Type) where
  | start
  | refuse
  | «yield» (x : Item)
  | endsWith (ending : Ending)
  | send
  | finish
  | poll
  | drop
  deriving DecidableEq, Repr

variable {Item : Type} {pump : Pump Item} {w w' : World Item} {event : Event Item}

/-- What is sent for an item; after an error the coroutine is on its way out. -/
def Pump.messages (pump : Pump Item) (first : Bool) (x : Item) : List Message :=
  match pump.item first x with
  | .ok parts => parts.map .ok
  | .error message => [.error message]

def Pump.fails (pump : Pump Item) (first : Bool) (x : Item) : Bool :=
  match pump.item first x with
  | .ok _ => false
  | .error _ => true

def Pump.ends (pump : Pump Item) : Ending → List Message
  | .stop => pump.closing.map .ok
  | .raised message => [.error message]
  | .cancelled => []

def World.new : World Item := ⟨.scheduled, [], none, [], .empty, .polled, false⟩

/-- The last item has been refused. -/
def World.broken (pump : Pump Item) (w : World Item) : Bool :=
  w.items.getLast?.any fun x => pump.fails (w.items.length = 1) x

/-- The coroutine waits for the generator. -/
def World.Waits (pump : Pump Item) (w : World Item) : Prop :=
  w.stage = .running ∧ w.pending = [] ∧ w.ending = none ∧ w.broken pump = false

instance : Decidable (w.Waits pump) := inferInstanceAs (Decidable (_ ∧ _ ∧ _ ∧ _))

def exec (pump : Pump Item) (w : World Item) : Event Item → Except Unit (World Item)
  | .start =>
    if w.stage = .scheduled then
      .ok { w with stage := .running, pending := pump.opening.map .ok }
    else .error ()
  | .refuse => if w.stage = .scheduled then .ok { w with stage := .refused } else .error ()
  | .yield x =>
    if w.Waits pump then
      .ok { w with items := w.items ++ [x], pending := pump.messages w.items.isEmpty x }
    else .error ()
  | .endsWith ending =>
    if w.Waits pump then
      .ok { w with ending := some ending, pending := pump.ends ending }
    else .error ()
  | .send =>
    match w.pending with
    | [] => .error ()
    | m :: rest =>
      -- a message for a body that is gone is lost
      if w.dropped then .ok { w with pending := rest }
      else .ok { w with pending := rest, channel := w.channel.send m }
  | .finish =>
    if w.stage = .running ∧ w.pending = [] ∧ (w.ending ≠ none ∨ w.broken pump = true) then
      .ok { w with stage := .finished }
    else .error ()
  | .poll =>
    if w.body = .polled ∧ w.dropped = false then
      match w.channel.recv? with
      | some (.ok _, channel) => .ok { w with channel }
      | some (.error message, channel) => .ok { w with channel, body := .failed message }
      | none =>
        -- the sender is dropped with the coroutine
        if w.stage = .finished ∨ w.stage = .refused then .ok { w with body := .ended } else .error ()
    else .error ()
  | .drop => if w.dropped = false then .ok { w with dropped := true } else .error ()

def Step (pump : Pump Item) (w : World Item) (event : Event Item) (w' : World Item) : Prop :=
  exec pump w event = .ok w'

/-- What a step can do. -/
inductive Move (pump : Pump Item) (w : World Item) : Event Item → World Item → Prop where
  | start (hstage : w.stage = .scheduled) :
      Move pump w .start { w with stage := .running, pending := pump.opening.map .ok }
  | refuse (hstage : w.stage = .scheduled) : Move pump w .refuse { w with stage := .refused }
  | yielded {x : Item} (hwaits : w.Waits pump) :
      Move pump w (.yield x)
        { w with items := w.items ++ [x], pending := pump.messages w.items.isEmpty x }
  | endsWith {ending : Ending} (hwaits : w.Waits pump) :
      Move pump w (.endsWith ending) { w with ending := some ending, pending := pump.ends ending }
  | lost {m : Message} {rest : List Message} (hpending : w.pending = m :: rest)
      (hdropped : w.dropped = true) : Move pump w .send { w with pending := rest }
  | sent {m : Message} {rest : List Message} (hpending : w.pending = m :: rest)
      (hdropped : w.dropped = false) :
      Move pump w .send { w with pending := rest, channel := w.channel.send m }
  | finish (hstage : w.stage = .running) (hpending : w.pending = [])
      (hend : w.ending ≠ none ∨ w.broken pump = true) :
      Move pump w .finish { w with stage := .finished }
  | read {b : Bytes} {channel : Channel Message} (hbody : w.body = .polled)
      (hdropped : w.dropped = false) (hrecv : w.channel.recv? = some (.ok b, channel)) :
      Move pump w .poll { w with channel }
  | failed {message : String} {channel : Channel Message} (hbody : w.body = .polled)
      (hdropped : w.dropped = false) (hrecv : w.channel.recv? = some (.error message, channel)) :
      Move pump w .poll { w with channel, body := .failed message }
  | ended (hbody : w.body = .polled) (hdropped : w.dropped = false)
      (hrecv : w.channel.recv? = none) (hstage : w.stage = .finished ∨ w.stage = .refused) :
      Move pump w .poll { w with body := .ended }
  | drop (hdropped : w.dropped = false) : Move pump w .drop { w with dropped := true }

theorem exec_move (h : Step pump w event w') : Move pump w event w' := by
  unfold Step exec at h
  cases event with
  | start =>
    dsimp only at h
    split at h
    · cases h
      exact .start ‹_›
    · cases h
  | refuse =>
    dsimp only at h
    split at h
    · cases h
      exact .refuse ‹_›
    · cases h
  | «yield» x =>
    dsimp only at h
    split at h
    · cases h
      exact .yielded ‹_›
    · cases h
  | endsWith ending =>
    dsimp only at h
    split at h
    · cases h
      exact .endsWith ‹_›
    · cases h
  | send =>
    dsimp only at h
    split at h
    · cases h
    · rename_i hpending
      split at h
      · cases h
        exact .lost hpending ‹_›
      · rename_i hdropped
        cases h
        exact .sent hpending (Bool.eq_false_iff.mpr hdropped)
  | finish =>
    dsimp only at h
    split at h
    · rename_i hguard
      cases h
      exact .finish hguard.1 hguard.2.1 hguard.2.2
    · cases h
  | poll =>
    dsimp only at h
    split at h
    · rename_i hguard
      obtain ⟨hbody, hdropped⟩ := hguard
      split at h
      · rename_i hrecv
        cases h
        exact .read hbody hdropped hrecv
      · rename_i hrecv
        cases h
        exact .failed hbody hdropped hrecv
      · rename_i hrecv
        split at h
        · cases h
          exact .ended hbody hdropped hrecv ‹_›
        · cases h
    · cases h
  | drop =>
    dsimp only at h
    split at h
    · cases h
      exact .drop ‹_›
    · cases h

/-! ## What is sent in all -/

def Pump.frames (pump : Pump Item) : Bool → List Item → List Message
  | _, [] => []
  | first, x :: rest => pump.messages first x ++ pump.frames false rest

/-- What the coroutine sends for what the generator has done. -/
def World.script (pump : Pump Item) (w : World Item) : List Message :=
  match w.stage with
  | .scheduled | .refused => []
  | .running | .finished =>
    pump.opening.map .ok ++ pump.frames true w.items ++ (w.ending.map pump.ends).getD []

/-- None of the items is refused. -/
def Pump.accepts (pump : Pump Item) : Bool → List Item → Bool
  | _, [] => true
  | first, x :: rest => !pump.fails first x && pump.accepts false rest

theorem Pump.frames_concat (pump : Pump Item) (first : Bool) (items : List Item) (x : Item) :
    pump.frames first (items ++ [x]) =
      pump.frames first items ++ pump.messages (first && items.isEmpty) x := by
  induction items generalizing first with
  | nil => simp [Pump.frames]
  | cons y rest ih => simp [Pump.frames, ih]

theorem Pump.accepts_concat (pump : Pump Item) (first : Bool) (items : List Item) (x : Item) :
    pump.accepts first (items ++ [x]) =
      (pump.accepts first items && !pump.fails (first && items.isEmpty) x) := by
  induction items generalizing first with
  | nil => simp [Pump.accepts]
  | cons y rest ih => simp [Pump.accepts, ih, Bool.and_assoc]

theorem Pump.accepts_dropLast {items : List Item} (h : pump.accepts true items = true) :
    pump.accepts true items.dropLast = true := by
  cases items using List.reverseRecOn with
  | nil => rfl
  | append_singleton items x =>
    rw [pump.accepts_concat, Bool.and_eq_true] at h
    rw [List.dropLast_concat]
    exact h.1

theorem broken_concat (w : World Item) (x : Item) (pending : List Message) :
    World.broken pump { w with items := w.items ++ [x], pending } =
      pump.fails w.items.isEmpty x := by
  have hfirst : decide ((w.items ++ [x]).length = 1) = w.items.isEmpty := by
    cases w.items <;> simp
  simp only [World.broken, List.getLast?_concat, Option.any_some, hfirst]

/-- Bytes, and at most one error after them. -/
def Regular (ms : List Message) : Prop :=
  ∃ (parts : List Bytes) (errors : List String), errors.length ≤ 1 ∧
    ms = parts.map Except.ok ++ errors.map Except.error

theorem regular_ok (parts : List Bytes) : Regular (parts.map Except.ok) :=
  ⟨parts, [], by simp, by simp⟩

theorem regular_error (message : String) : Regular [.error message] :=
  ⟨[], [message], by simp, rfl⟩

theorem Regular.ok_append {ms : List Message} (parts : List Bytes) (h : Regular ms) :
    Regular (parts.map Except.ok ++ ms) := by
  obtain ⟨parts', errors, hle, rfl⟩ := h
  exact ⟨parts ++ parts', errors, hle, by simp⟩

theorem Pump.regular_messages (pump : Pump Item) (first : Bool) (x : Item) :
    Regular (pump.messages first x) := by
  unfold Pump.messages
  split
  · exact regular_ok _
  · exact regular_error _

theorem Pump.regular_ends (pump : Pump Item) (ending : Ending) : Regular (pump.ends ending) := by
  cases ending with
  | stop => exact regular_ok _
  | raised message => exact regular_error message
  | cancelled => exact regular_ok []

theorem Pump.messages_of_not_fails {first : Bool} {x : Item} (h : pump.fails first x = false) :
    ∃ parts : List Bytes, pump.messages first x = parts.map .ok := by
  unfold Pump.fails at h
  unfold Pump.messages
  split at h
  · exact ⟨_, rfl⟩
  · cases h

/-- As long as no item is refused, everything is bytes. -/
theorem Pump.frames_of_accepts {items : List Item} (h : pump.accepts true items = true) :
    ∃ parts : List Bytes, pump.frames true items = parts.map .ok := by
  induction items using List.reverseRecOn with
  | nil => exact ⟨[], rfl⟩
  | append_singleton items x ih =>
    rw [pump.accepts_concat, Bool.and_eq_true, Bool.not_eq_true'] at h
    obtain ⟨parts, hparts⟩ := ih h.1
    obtain ⟨parts', hparts'⟩ := Pump.messages_of_not_fails h.2
    exact ⟨parts ++ parts', by rw [pump.frames_concat, hparts, hparts', List.map_append]⟩

/-- What comes first of something regular, and ends in an error, is all of it. -/
theorem Regular.eq_of_error {parts : List Bytes} {message : String} {ms : List Message}
    (h : Regular ms) (hms : parts.map Except.ok ++ [.error message] <+: ms) :
    parts.map Except.ok ++ [.error message] = ms := by
  obtain ⟨parts', errors, hle, rfl⟩ := h
  obtain ⟨rest, hrest⟩ := hms
  rw [List.append_assoc] at hrest
  induction parts generalizing parts' with
  | nil =>
    cases parts' with
    | cons b parts' => simp at hrest
    | nil =>
      cases errors with
      | nil => simp at hrest
      | cons e errors =>
        cases errors with
        | cons e' errors => simp at hle
        | nil => simpa using (List.cons.inj hrest).1
  | cons b parts ih =>
    cases parts' with
    | nil =>
      cases errors with
      | nil => simp at hrest
      | cons e errors => simp at hrest
    | cons b' parts' =>
      simp only [List.map_cons, List.cons_append, List.cons.injEq] at hrest ⊢
      exact ⟨hrest.1, ih parts' hrest.2⟩

/-! ## The coroutine -/

structure Sending (pump : Pump Item) (w : World Item) : Prop where
  idle : w.stage = .scheduled ∨ w.stage = .refused →
    w.items = [] ∧ w.ending = none ∧ w.pending = [] ∧ w.channel.entered = []
  order : w.channel.entered <+: w.script pump
  flow : w.dropped = false → w.channel.entered ++ w.pending = w.script pump
  accepted : w.broken pump = false → pump.accepts true w.items = true
  before : pump.accepts true w.items.dropLast = true
  ending : w.ending ≠ none → w.broken pump = false
  regular : Regular (w.script pump)
  finished : w.stage = .finished → w.pending = []

theorem sending_new : Sending pump (.new : World Item) where
  idle _ := ⟨rfl, rfl, rfl, rfl⟩
  order := List.prefix_rfl
  flow _ := rfl
  accepted _ := rfl
  before := rfl
  ending h := absurd rfl h
  regular := regular_ok []
  finished h := by cases h

theorem script_of_waits (hwaits : w.Waits pump) :
    w.script pump = pump.opening.map .ok ++ pump.frames true w.items := by
  simp [World.script, hwaits.1, hwaits.2.2.1]

theorem Sending.entered_of_waits (h : Sending pump w) (hwaits : w.Waits pump)
    (hdropped : w.dropped = false) : w.channel.entered = w.script pump := by
  rw [← h.flow hdropped, hwaits.2.1, List.append_nil]

/-- What comes after a script that has nothing but bytes. -/
theorem Sending.regular_append (h : Sending pump w) (hwaits : w.Waits pump) {ms : List Message}
    (hms : Regular ms) : Regular (w.script pump ++ ms) := by
  obtain ⟨parts, hparts⟩ := Pump.frames_of_accepts (h.accepted hwaits.2.2.2)
  rw [script_of_waits hwaits, hparts, ← List.map_append]
  exact hms.ok_append _

theorem script_yield (hwaits : w.Waits pump) (x : Item) (pending : List Message) :
    World.script pump { w with items := w.items ++ [x], pending } =
      w.script pump ++ pump.messages w.items.isEmpty x := by
  rw [script_of_waits hwaits]
  simp [World.script, hwaits.1, hwaits.2.2.1, pump.frames_concat]

theorem script_endsWith (hwaits : w.Waits pump) (ending : Ending) (pending : List Message) :
    World.script pump { w with ending := some ending, pending } =
      w.script pump ++ pump.ends ending := by
  rw [script_of_waits hwaits]
  simp [World.script, hwaits.1]

theorem Sending.move (h : Sending pump w) (hmove : Move pump w event w') : Sending pump w' := by
  cases hmove with
  | start hstage =>
    obtain ⟨hitems, hending, hpending, hentered⟩ := h.idle (.inl hstage)
    have hscript : World.script pump { w with stage := .running, pending := pump.opening.map .ok } =
        pump.opening.map .ok := by
      simp [World.script, hitems, hending, Pump.frames]
    refine ⟨fun hidle => ?_, ?_, fun _ => ?_, h.accepted, h.before, h.ending, ?_,
      fun hover => ?_⟩
    · rcases hidle with hidle | hidle <;> cases hidle
    · simp [hentered]
    · rw [hscript, hentered, List.nil_append]
    · rw [hscript]
      exact regular_ok _
    · cases hover
  | refuse hstage =>
    obtain ⟨hitems, hending, hpending, hentered⟩ := h.idle (.inl hstage)
    refine ⟨fun _ => ⟨hitems, hending, hpending, hentered⟩, ?_, fun _ => ?_, h.accepted,
      h.before, h.ending, regular_ok [], fun hover => ?_⟩
    · simp [hentered]
    · simp [hentered, hpending, World.script]
    · cases hover
  | @yielded x hwaits =>
    have hscript := script_yield hwaits x (pump.messages w.items.isEmpty x)
    refine ⟨fun hidle => ?_, ?_, fun hdropped => ?_, fun hbroken => ?_, ?_,
      fun hending => ?_, ?_, fun hover => ?_⟩
    · rw [hwaits.1] at hidle
      rcases hidle with hidle | hidle <;> cases hidle
    · rw [hscript]
      exact h.order.trans (List.prefix_append _ _)
    · rw [hscript, h.entered_of_waits hwaits hdropped]
    · rw [broken_concat] at hbroken
      simp [pump.accepts_concat, h.accepted hwaits.2.2.2, hbroken]
    · rw [List.dropLast_concat]
      exact h.accepted hwaits.2.2.2
    · exact absurd hwaits.2.2.1 hending
    · rw [hscript]
      exact h.regular_append hwaits (pump.regular_messages _ _)
    · exact absurd (hwaits.1.symm.trans hover) (by decide)
  | @endsWith ending hwaits =>
    have hscript := script_endsWith hwaits ending (pump.ends ending)
    refine ⟨fun hidle => ?_, ?_, fun hdropped => ?_, h.accepted, h.before,
      fun _ => hwaits.2.2.2, ?_, fun hover => ?_⟩
    · rw [hwaits.1] at hidle
      rcases hidle with hidle | hidle <;> cases hidle
    · rw [hscript]
      exact h.order.trans (List.prefix_append _ _)
    · rw [hscript, h.entered_of_waits hwaits hdropped]
    · rw [hscript]
      exact h.regular_append hwaits (pump.regular_ends ending)
    · exact absurd (hwaits.1.symm.trans hover) (by decide)
  | @lost m rest hpending hdropped =>
    refine ⟨fun hidle => ?_, h.order, fun hnot => ?_, h.accepted, h.before, h.ending, h.regular,
      fun hover => ?_⟩
    · exact absurd (hpending.symm.trans (h.idle hidle).2.2.1) (List.cons_ne_nil m rest)
    · exact absurd (hdropped.symm.trans hnot) (by decide)
    · exact absurd (hpending.symm.trans (h.finished hover)) (List.cons_ne_nil m rest)
  | @sent m rest hpending hdropped =>
    have hflow := h.flow hdropped
    rw [hpending] at hflow
    have hflow' : (w.channel.send m).entered ++ rest = w.script pump := by
      rw [← hflow, Channel.send_entered, List.append_assoc, List.singleton_append]
    refine ⟨fun hidle => ?_, ⟨rest, hflow'⟩, fun _ => hflow', h.accepted, h.before, h.ending,
      h.regular, fun hover => ?_⟩
    · exact absurd (hpending.symm.trans (h.idle hidle).2.2.1) (List.cons_ne_nil m rest)
    · exact absurd (hpending.symm.trans (h.finished hover)) (List.cons_ne_nil m rest)
  | finish hstage hpending hend =>
    have hscript : World.script pump { w with stage := .finished } = w.script pump := by
      simp [World.script, hstage]
    refine ⟨fun hidle => ?_, hscript ▸ h.order, hscript ▸ h.flow, h.accepted, h.before,
      h.ending, hscript ▸ h.regular, fun _ => hpending⟩
    rcases hidle with hidle | hidle <;> cases hidle
  | read hbody hdropped hrecv | failed hbody hdropped hrecv =>
    obtain ⟨-, hentered, -⟩ := Channel.recv?_eq_some hrecv
    exact ⟨fun hidle => hentered ▸ h.idle hidle, hentered ▸ h.order, hentered ▸ h.flow,
      h.accepted, h.before, h.ending, h.regular, h.finished⟩
  | ended => exact ⟨h.idle, h.order, h.flow, h.accepted, h.before, h.ending, h.regular, h.finished⟩
  | drop =>
    exact ⟨h.idle, h.order, fun hnot => absurd hnot (by simp), h.accepted, h.before, h.ending,
      h.regular, h.finished⟩

/-! ## The body -/

structure Reading (pump : Pump Item) (w : World Item) : Prop where
  polled : w.body = .polled → ∃ parts : List Bytes, w.channel.left = parts.map .ok
  ended : w.body = .ended → (w.stage = .finished ∨ w.stage = .refused) ∧
    w.channel.left = w.script pump ∧ ∃ parts : List Bytes, w.channel.left = parts.map .ok
  failed : ∀ message, w.body = .failed message → ∃ parts : List Bytes,
    w.channel.left = parts.map .ok ++ [.error message]

theorem reading_new : Reading pump (.new : World Item) where
  polled _ := ⟨[], rfl⟩
  ended h := by cases h
  failed _ h := by cases h

/-- What the coroutine does is not seen before the body is polled. -/
theorem Reading.of_frame (h : Reading pump w) (hbody : w'.body = w.body)
    (hleft : w'.channel.left = w.channel.left)
    (hover : w.stage = .finished ∨ w.stage = .refused →
      w'.stage = w.stage ∧ w'.script pump = w.script pump) :
    Reading pump w' where
  polled hpolled := by
    rw [hleft]
    exact h.polled (hbody ▸ hpolled)
  ended hended := by
    obtain ⟨hstage, hscript, hparts⟩ := h.ended (hbody ▸ hended)
    obtain ⟨hsame, hscript'⟩ := hover hstage
    rw [hleft, hsame, hscript']
    exact ⟨hstage, hscript, hparts⟩
  failed message hfailed := by
    rw [hleft]
    exact h.failed message (hbody ▸ hfailed)

theorem Reading.move (h : Reading pump w) (hsending : Sending pump w)
    (hmove : Move pump w event w') : Reading pump w' := by
  have hnot : ∀ {stage : Stage}, w.stage = stage → stage ≠ .finished → stage ≠ .refused →
      ¬ (w.stage = .finished ∨ w.stage = .refused) := by
    rintro stage hstage hover hrefused (h | h)
    · exact hover (hstage.symm.trans h)
    · exact hrefused (hstage.symm.trans h)
  cases hmove with
  | start hstage =>
    exact h.of_frame rfl rfl fun hover => absurd hover (hnot hstage (by decide) (by decide))
  | refuse hstage =>
    exact h.of_frame rfl rfl fun hover => absurd hover (hnot hstage (by decide) (by decide))
  | yielded hwaits =>
    exact h.of_frame rfl rfl fun hover => absurd hover (hnot hwaits.1 (by decide) (by decide))
  | endsWith hwaits =>
    exact h.of_frame rfl rfl fun hover => absurd hover (hnot hwaits.1 (by decide) (by decide))
  | lost => exact h.of_frame rfl rfl fun _ => ⟨rfl, rfl⟩
  | sent => exact h.of_frame rfl (Channel.send_left _ _) fun _ => ⟨rfl, rfl⟩
  | finish hstage =>
    exact h.of_frame rfl rfl fun hover => absurd hover (hnot hstage (by decide) (by decide))
  | drop => exact h.of_frame rfl rfl fun _ => ⟨rfl, rfl⟩
  | @read b channel hbody hdropped hrecv =>
    obtain ⟨-, -, hleft⟩ := Channel.recv?_eq_some hrecv
    obtain ⟨parts, hparts⟩ := h.polled hbody
    refine ⟨fun _ => ⟨parts ++ [b], ?_⟩, fun hended => ?_, fun message hfailed => ?_⟩
    · simp [hleft, hparts]
    · exact absurd (hbody.symm.trans hended) (by decide)
    · exact absurd (hbody.symm.trans hfailed) (by simp)
  | @failed message channel hbody hdropped hrecv =>
    obtain ⟨-, -, hleft⟩ := Channel.recv?_eq_some hrecv
    obtain ⟨parts, hparts⟩ := h.polled hbody
    refine ⟨fun hpolled => ?_, fun hended => ?_, fun message' hfailed => ?_⟩
    · cases hpolled
    · cases hended
    · cases hfailed
      exact ⟨parts, by rw [hleft, hparts]⟩
  | ended hbody hdropped hrecv hstage =>
    have hleft := Channel.entered_eq_left (Channel.recv?_eq_none.mp hrecv)
    have hpending : w.pending = [] := by
      rcases hstage with hstage | hstage
      · exact hsending.finished hstage
      · exact (hsending.idle (.inr hstage)).2.2.1
    have hflow := hsending.flow hdropped
    rw [hpending, List.append_nil, hleft] at hflow
    refine ⟨fun hpolled => ?_, fun _ => ⟨hstage, hflow, h.polled hbody⟩,
      fun message hfailed => ?_⟩
    · cases hpolled
    · cases hfailed

/-- What has been polled is a first part of what is sent in all; a body that ends has given
all of it, and one that fails has given the error that is the last of it. -/
structure Delivered (pump : Pump Item) (w : World Item) : Prop where
  order : w.channel.left <+: w.script pump
  polled : w.body = .polled → ∃ parts : List Bytes, w.channel.left = parts.map .ok
  ended : w.body = .ended → (w.stage = .finished ∨ w.stage = .refused) ∧
    w.channel.left = w.script pump ∧ ∃ parts : List Bytes, w.channel.left = parts.map .ok
  failed : ∀ message, w.body = .failed message → w.channel.left = w.script pump ∧
    ∃ parts : List Bytes, w.channel.left = parts.map .ok ++ [.error message]

theorem sound_of_run {tr : List (Event Item × World Item)} (hrun : Along (Step pump) .new tr) :
    ∀ w ∈ visited .new tr, Sending pump w ∧ Reading pump w := by
  refine hrun.invariant (I := fun w => Sending pump w ∧ Reading pump w) ?_
    ⟨sending_new, reading_new⟩
  intro w event w' h hstep
  exact ⟨h.1.move (exec_move hstep), h.2.move h.1 (exec_move hstep)⟩

theorem Sending.delivered (h : Sending pump w) (hread : Reading pump w) : Delivered pump w := by
  have horder := w.channel.left_prefix.trans h.order
  refine ⟨horder, hread.polled, hread.ended, ?_⟩
  intro message hfailed
  obtain ⟨parts, hparts⟩ := hread.failed message hfailed
  exact ⟨hparts.trans (h.regular.eq_of_error (hparts ▸ horder)), parts, hparts⟩

/-- In every state that a stream comes to, its body has given what the coroutine sends, in
order and without a gap. -/
theorem stream_delivers {tr : List (Event Item × World Item)} (hrun : Along (Step pump) .new tr) :
    ∀ w ∈ visited .new tr, Delivered pump w := by
  intro w hw
  obtain ⟨hsending, hread⟩ := sound_of_run hrun w hw
  exact hsending.delivered hread

/-- The second chunk cannot be sent, and the client is told so. -/
def chunkStream : List (Event Chunk) :=
  [.start, .yield (.str "a"), .send, .poll, .yield (.other "no bytes"), .send, .finish, .poll]

theorem stream_delivers_chunkStream :
    let w := final (exec pumpStream) .new chunkStream
    w.channel.left = [.ok [97], .error "no bytes"] ∧ Delivered pumpStream w := by
  intro w
  exact ⟨by decide +kernel, stream_delivers (along_replay (exec pumpStream) .new chunkStream) w
    (final_mem_visited _ _ _)⟩

/-! ## Coming to rest -/

/-- The steps that need nothing from the generator. -/
def Event.Working : Event Item → Prop
  | .start | .refuse | .send | .finish | .poll | .drop => True
  | .yield _ | .endsWith _ => False

instance (event : Event Item) : Decidable event.Working :=
  match event with
  | .start | .refuse | .send | .finish | .poll | .drop => .isTrue trivial
  | .yield _ | .endsWith _ => .isFalse id

def Stage.work (pump : Pump Item) : Stage → Nat
  | .scheduled => 2 * pump.opening.length + 2
  | .running => 1
  | .finished | .refused => 0

def World.work (pump : Pump Item) (w : World Item) : Nat :=
  w.stage.work pump + 2 * w.pending.length + w.channel.queue.length +
    (if w.body = .polled then 1 else 0) + (!w.dropped).toNat

theorem Move.work_lt (hmove : Move pump w event w') (hsending : Sending pump w)
    (hworking : event.Working) : w'.work pump < w.work pump := by
  cases hmove with
  | yielded | endsWith => exact hworking.elim
  | start hstage =>
    have hpending := (hsending.idle (.inl hstage)).2.2.1
    simp only [World.work, Stage.work, hstage, hpending, List.length_map, List.length_nil]
    omega
  | refuse hstage =>
    simp only [World.work, Stage.work, hstage]
    omega
  | lost hpending =>
    simp only [World.work, hpending, List.length_cons]
    omega
  | sent hpending =>
    simp only [World.work, hpending, List.length_cons, Channel.send_queue, List.length_append,
      List.length_nil]
    omega
  | finish hstage =>
    simp only [World.work, Stage.work, hstage]
    omega
  | read hbody hdropped hrecv =>
    have hqueue := (Channel.recv?_eq_some hrecv).1
    simp only [World.work, hqueue, List.length_cons]
    omega
  | failed hbody hdropped hrecv =>
    have hqueue := (Channel.recv?_eq_some hrecv).1
    simp only [World.work, hqueue, hbody, List.length_cons, reduceCtorEq, if_true, if_false]
    omega
  | ended hbody => simp [World.work, hbody]
  | drop hdropped => simp [World.work, hdropped]

/-- Nothing but the generator, or a client that goes away, can make a step. -/
def AtRest (pump : Pump Item) (w : World Item) : Prop :=
  ∀ event w', event.Working → event ≠ .refuse → event ≠ .drop → ¬ Step pump w event w'

/-- Everything has been polled, and the body is over with the coroutine. -/
def Settled (pump : Pump Item) (w : World Item) : Prop :=
  (w.Waits pump ∨ w.stage = .finished ∨ w.stage = .refused) ∧
    (w.dropped = false → w.channel.left = w.script pump ∧ (w.body = .polled ↔ w.Waits pump))

theorem AtRest.stage (h : AtRest pump w) :
    w.pending = [] ∧ (w.Waits pump ∨ w.stage = .finished ∨ w.stage = .refused) := by
  have hpending : w.pending = [] := by
    cases hpending : w.pending with
    | nil => rfl
    | cons m rest =>
      refine absurd ?_ (h .send (if w.dropped then { w with pending := rest } else
        { w with pending := rest, channel := w.channel.send m }) trivial (by simp) (by simp))
      simp only [Step, exec, hpending]
      split <;> rfl
  refine ⟨hpending, ?_⟩
  cases hstage : w.stage with
  | scheduled =>
    refine absurd ?_ (h .start { w with stage := .running, pending := pump.opening.map .ok } trivial
      (by simp) (by simp))
    simp [Step, exec, hstage]
  | finished => exact .inr (.inl rfl)
  | refused => exact .inr (.inr rfl)
  | running =>
    by_cases hend : w.ending ≠ none ∨ w.broken pump = true
    · refine absurd ?_ (h .finish { w with stage := .finished } trivial (by simp) (by simp))
      simp only [Step, exec]
      rw [if_pos ⟨hstage, hpending, hend⟩]
    · obtain ⟨hending, hbroken⟩ := not_or.mp hend
      exact .inl ⟨hstage, hpending, not_not.mp hending, Bool.eq_false_iff.mpr hbroken⟩

/-- A body that is still polled has been given everything, and waits for more. -/
theorem AtRest.polled (h : AtRest pump w) (hdropped : w.dropped = false)
    (hbody : w.body = .polled) :
    w.channel.queue = [] ∧ w.stage ≠ .finished ∧ w.stage ≠ .refused := by
  cases hrecv : w.channel.recv? with
  | some answer =>
    obtain ⟨m, channel⟩ := answer
    cases m with
    | ok b =>
      refine absurd ?_ (h .poll { w with channel } trivial (by simp) (by simp))
      simp [Step, exec, hbody, hdropped, hrecv]
    | error message =>
      refine absurd ?_ (h .poll { w with channel, body := .failed message } trivial (by simp)
        (by simp))
      simp [Step, exec, hbody, hdropped, hrecv]
  | none =>
    refine ⟨Channel.recv?_eq_none.mp hrecv, not_or.mp fun hstage => ?_⟩
    refine absurd ?_ (h .poll { w with body := .ended } trivial (by simp) (by simp))
    simp only [Step, exec, hrecv]
    rw [if_pos ⟨hbody, hdropped⟩, if_pos hstage]

theorem AtRest.settled (h : AtRest pump w) (hsending : Sending pump w) (hread : Reading pump w) :
    Settled pump w := by
  obtain ⟨hpending, hstage⟩ := h.stage
  refine ⟨hstage, fun hdropped => ?_⟩
  have hdelivered := hsending.delivered hread
  cases hbody : w.body with
  | ended =>
    obtain ⟨hover, hleft, -⟩ := hdelivered.ended hbody
    refine ⟨hleft, by simp, fun hwaits => ?_⟩
    rcases hover with hover | hover <;> cases hwaits.1.symm.trans hover
  | failed message =>
    obtain ⟨hleft, parts, hparts⟩ := hdelivered.failed message hbody
    refine ⟨hleft, by simp, fun hwaits => ?_⟩
    -- while the coroutine waits, no error has been sent
    obtain ⟨parts', hparts'⟩ := Pump.frames_of_accepts (hsending.accepted hwaits.2.2.2)
    rw [hleft, script_of_waits hwaits, hparts', ← List.map_append] at hparts
    have hmem : (.error message : Message) ∈ (pump.opening ++ parts').map Except.ok :=
      hparts ▸ List.mem_append_right _ List.mem_cons_self
    obtain ⟨b, -, hb⟩ := List.mem_map.mp hmem
    cases hb
  | polled =>
    obtain ⟨hqueue, hover, hrefused⟩ := h.polled hdropped hbody
    have hflow := hsending.flow hdropped
    rw [hpending, List.append_nil, Channel.entered_eq_left hqueue] at hflow
    refine ⟨hflow, fun _ => ?_, fun _ => rfl⟩
    exact hstage.resolve_right (not_or.mpr ⟨hover, hrefused⟩)

/-- From every state that a stream comes to: the steps that need nothing from the generator
are bounded by the work that is left, and where none of them is left everything that was
yielded has been polled. -/
theorem stream_settles {tr tr' : List (Event Item × World Item)}
    (hrun : Along (Step pump) .new tr) (hw : w ∈ visited .new tr)
    (hrun' : Along (fun w event w' => event.Working ∧ Step pump w event w') w tr') :
    tr'.length ≤ w.work pump ∧ (AtRest pump (last w tr') → Settled pump (last w tr')) := by
  have hstep : ∀ (w : World Item) event w', Sending pump w ∧ Reading pump w →
      event.Working ∧ Step pump w event w' → Sending pump w' ∧ Reading pump w' :=
    fun _ _ _ h hs => ⟨h.1.move (exec_move hs.2), h.2.move h.1 (exec_move hs.2)⟩
  have hsound := sound_of_run hrun w hw
  constructor
  · have hlength := hrun'.length_add_le (World.work pump)
      (fun s event t h hs => ⟨hstep s event t h hs, (exec_move hs.2).work_lt h.1 hs.1⟩) hsound
    exact Nat.le_trans (Nat.le_add_right _ _) hlength
  · intro hrest
    obtain ⟨hsending, hread⟩ := hrun'.invariant hstep hsound _ (last_mem_visited w tr')
    exact hrest.settled hsending hread

/-- The second item is refused, and the client reads on. -/
def brokenStream : List (Event Nat) :=
  [.start, .yield 3, .send, .poll, .yield 70, .send, .finish]

def smallNumbers : String → Except String (List String)
  | "3" => .ok []
  | _ => .ok ["too large"]

def digits (n : Nat) : Except String String := .ok (toString n)

theorem stream_settles_brokenStream :
    let pump := pumpValidatedStream digits smallNumbers "ndjson"
    let w := final (exec pump) .new brokenStream
    let rest := replay (exec pump) w [.poll]
    (last w rest).body = .failed "validation failed: too large" ∧
      rest.length ≤ w.work pump := by
  intro pump w rest
  refine ⟨by decide +kernel, (stream_settles (along_replay (exec pump) .new brokenStream)
    (final_mem_visited _ _ _) ?_).1⟩
  exact along_replay_labels (exec pump) (P := Event.Working) w _ (by decide)

end JustApi.Py.Streams
