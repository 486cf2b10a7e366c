import EdgeCompose.Fetch.Event
import EdgeCompose.Metrics
import EdgeCompose.Store.Fragments

/-!
Programs that ask their surroundings for things. A program is a tree: it is done with a result,
or it asks for one thing and goes on with the answer. What an answer is, the surroundings
decide, so that one program can be run alone, among others, or against any backend.
-/

namespace EdgeCompose

/-- What a program can ask for. -/
inductive Command where
  | find (key : FragmentKey)
  | register (key : FragmentKey) (content : Text) (fetchable : Bool)
  | keep (key : FragmentKey) (content : Text) (lifetime : Option Nat)
  | acquire (key : FragmentKey)
  | release (key : FragmentKey)
  | announce (phase : Phase) (event : FetchEvent)
  | consult (request : FetchRequest)
  | send (request : FetchRequest)
  | offer (request : FetchRequest) (response : Response)
  | count (sample : Sample)
  deriving DecidableEq, Repr

namespace Command

/-- The type of the answers to a command. -/
@[reducible] def Answer : Command → Type
  | .find _ => Option Text
  | .announce .. => FetchEvent
  | .consult _ => Option Lookup
  | .send _ => Except TransportFailure Response
  | .register .. | .keep .. | .acquire _ | .release _ | .offer .. | .count _ => Unit

/-- Whether others may go on before the answer is used. -/
def yields : Command → Bool
  | .send _ => true
  | _ => false

end Command

inductive Program (α : Type) where
  | done (a : α)
  | ask (c : Command) (next : c.Answer → Program α)

namespace Program

variable {α β γ : Type}

def bind : Program α → (α → Program β) → Program β
  | .done a, f => f a
  | .ask c next, f => .ask c fun answer => (next answer).bind f

instance : Monad Program where
  pure := .done
  bind := bind

/-- The program that asks for one thing. -/
def perform (c : Command) : Program c.Answer := .ask c .done

theorem bind_done (p : Program α) : p.bind .done = p := by
  induction p with
  | done a => rfl
  | ask c next ih => simp [bind, ih]

theorem bind_bind (p : Program α) (f : α → Program β) (g : β → Program γ) :
    (p.bind f).bind g = p.bind fun a => (f a).bind g := by
  induction p with
  | done a => rfl
  | ask c next ih => simp [bind, ih]

instance : LawfulMonad Program :=
  LawfulMonad.mk' Program (fun p => bind_done p) (fun _ _ => rfl) bind_bind

/-- A program is below another if the other may come to it by getting answers. -/
inductive Below : Program α → Program α → Prop
  | next (c : Command) (next : c.Answer → Program α) (answer : c.Answer) :
    Below (next answer) (.ask c next)
  | trans {p q r : Program α} : Below p q → Below q r → Below p r

theorem not_below_done {p : Program α} {a : α} : ¬ Below p (.done a) := by
  intro h
  generalize hq : Program.done a = q at h
  induction h with
  | next c next answer => cases hq
  | trans _ _ _ ih => exact ih hq

theorem below_ask {p : Program α} {c : Command} {next : c.Answer → Program α}
    (h : Below p (.ask c next)) : ∃ answer, p = next answer ∨ Below p (next answer) := by
  generalize hq : Program.ask c next = q at h
  induction h with
  | next c' next' answer =>
    cases hq
    exact ⟨answer, .inl rfl⟩
  | trans hpq _ _ ih =>
    obtain ⟨answer, rfl | hbelow⟩ := ih hq
    · exact ⟨answer, .inr hpq⟩
    · exact ⟨answer, .inr (.trans hpq hbelow)⟩

theorem acc_below (p : Program α) : Acc Below p := by
  induction p with
  | done a => exact .intro _ fun q h => (not_below_done h).elim
  | ask c next ih =>
    refine .intro _ fun q h => ?_
    obtain ⟨answer, rfl | hbelow⟩ := below_ask h
    · exact ih answer
    · exact (ih answer).inv hbelow

end Program

end EdgeCompose
