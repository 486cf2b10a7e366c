import EdgeCompose.Effect.Program
import EdgeCompose.Store.Locks

/-!
The surroundings of programs: the stores, the locks, the listeners, the backend and a journal of
what happened. Each command has one answer in a world, or has to wait for a lock, or runs into
an expiry that cannot be represented; and it leaves a world behind.
-/

namespace EdgeCompose

/-- What happened, in order: requests that reached the backend, calls of listeners, samples. -/
structure Journal where
  sent : List FetchRequest := []
  heard : List Heard := []
  samples : List Sample := []

/-- A backend answers a request in view of the requests it had before. -/
abbrev Backend := List FetchRequest → FetchRequest → Except TransportFailure Response

structure World where
  clock : Clock := {}
  fragments : FragmentStore := .empty
  responses : Option ResponseStore := none
  locks : Locks := .empty
  before : List Listener := []
  after : List Listener := []
  backend : Backend
  journal : Journal := {}

inductive Reply (α : Type) where
  | answer (a : α)
  | wait
  | overflow

namespace World

def listeners (w : World) : Phase → List Listener
  | .before => w.before
  | .after => w.after

def find (w : World) (k : FragmentKey) : Option Text × World :=
  let (content, fragments) := FragmentStore.find w.fragments w.clock.calendar k
  (content, { w with fragments })

def register (w : World) (k : FragmentKey) (content : Text) (fetchable : Bool) : World :=
  { w with fragments := FragmentStore.put w.fragments k { content, fetchable } }

/-- When something expires that lasts for `lifetime` from now on. -/
def expiry? (w : World) (lifetime : Option Nat) : Except Overflow (Option Int) :=
  match lifetime with
  | none => .ok none
  | some seconds => (Clock.after? w.clock.calendar seconds).map some

def keep (w : World) (k : FragmentKey) (content : Text) (lifetime : Option Nat) :
    Except Overflow World :=
  (w.expiry? lifetime).map fun expires =>
    let stored := FragmentStore.storeFetched w.fragments w.clock.calendar k content expires
    { w with fragments := stored.2 }

/-- Queues for a lock, and says whether `who` holds it now. -/
def acquire (w : World) (who : Nat) (k : FragmentKey) : Bool × World :=
  let locks := Locks.enter w.locks k who
  (Locks.holder? locks k == some who, { w with locks })

def announce (w : World) (phase : Phase) (e : FetchEvent) : FetchEvent × World :=
  let (e, heard) := EdgeCompose.announce phase (w.listeners phase) e
  (e, { w with journal := { w.journal with heard := w.journal.heard ++ heard } })

/-- Looks an answer up; there is none to look up where answers are not stored. -/
def consult (w : World) (r : FetchRequest) : Option Lookup × World :=
  match w.responses with
  | none => (none, w)
  | some s =>
    let (found, s) := s.lookup w.clock.steady r
    (some found, { w with responses := some s })

def send (w : World) (r : FetchRequest) : Except TransportFailure Response × World :=
  (w.backend w.journal.sent r,
    { w with journal := { w.journal with sent := w.journal.sent ++ [r] } })

def offer (w : World) (r : FetchRequest) (response : Response) : Except Overflow Unit × World :=
  match w.responses with
  | none => (.ok (), w)
  | some s =>
    let (stored, s) := s.store w.clock.steady r response
    (stored.map fun _ => (), { w with responses := some s })

def count (w : World) (s : Sample) : World :=
  { w with journal := { w.journal with samples := w.journal.samples ++ [s] } }

/-- What a command of the program `who` comes to. -/
def reply (w : World) (who : Nat) : (c : Command) → Reply c.Answer × World
  | .find k => let (content, w) := w.find k; (.answer content, w)
  | .register k content fetchable => (.answer (), w.register k content fetchable)
  | .keep k content lifetime =>
    match w.keep k content lifetime with
    | .ok w => (.answer (), w)
    | .error _ => (.overflow, w)
  | .acquire k =>
    let (held, w) := w.acquire who k
    (if held then .answer () else .wait, w)
  | .release k => (.answer (), { w with locks := Locks.leave w.locks k who })
  | .announce phase e => let (e, w) := w.announce phase e; (.answer e, w)
  | .consult r => let (found, w) := w.consult r; (.answer found, w)
  | .send r => let (answer, w) := w.send r; (.answer answer, w)
  | .offer r response =>
    match w.offer r response with
    | (.ok _, w) => (.answer (), w)
    | (.error _, w) => (.overflow, w)
  | .count s => (.answer (), w.count s)

/-- The world after all programs that were running in it have been given up. -/
def abandoned (w : World) : World := { w with locks := .empty }

/-- Adds a listener behind those that listen already. -/
def subscribe (w : World) (phase : Phase) (l : Listener) : World :=
  match phase with
  | .before => { w with before := w.before ++ [l] }
  | .after => { w with after := w.after ++ [l] }

end World

end EdgeCompose
