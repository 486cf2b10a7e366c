import EdgeCompose.Proofs.Queues

/-!
Renders that share a world, with the mutexes behind the locks of keys. Whether a lock is granted is
read off the line of the mutex. Taking a reference, getting in line and each step of giving a lock
back are steps of their own, between which others may do theirs; and a render may be given up at any
point. The invariant `LockedSystem.Sound` says that the lines are the queues of the world all the
time. So what a run comes to is what a run of the system without mutexes comes to (`run_system`), and
one document is fetched by at most one include at a time here, too (`one_flight`).
-/

namespace EdgeCompose

open Program

/-! ## Renders and mutexes -/

namespace Mutexes

/-- The key whose lock a command takes, if there is no reference to its mutex yet. -/
def missing? (m : Mutexes) (who : Nat) : Command → Option FragmentKey
  | .acquire key => if m.handles.contains (who, key) then none else some key
  | _ => none

def after (m : Mutexes) (who : Nat) : Command → Mutexes
  | .acquire key => m.queue who key
  | .release key => m.letGo who key
  | _ => m

def isLeaving (m : Mutexes) (who : Nat) : Bool := m.leaving.any fun lock => lock.1 == who

variable {m : Mutexes} {who other : Nat} {key : FragmentKey}

theorem missing?_eq_some {c : Command} (h : m.missing? who c = some key) :
    c = .acquire key ∧ m.handles.get? (who, key) = none := by
  cases c with
  | acquire k =>
    by_cases hhandle : m.handles.get? (who, k) = none
    · have hkey : k = key := by simpa [missing?, Table.contains, hhandle] using h
      exact ⟨congrArg Command.acquire hkey, hkey ▸ hhandle⟩
    · simp [missing?, Table.contains, Option.isSome_iff_ne_none, hhandle] at h
  | _ => cases h

theorem missing?_eq_none {c : Command} (h : m.missing? who c = none) :
    ∀ key, c = .acquire key → m.handles.get? (who, key) ≠ none := by
  rintro key rfl
  simpa [missing?, Table.contains, Option.isSome_iff_ne_none] using h

theorem isLeaving_iff : m.isLeaving who = true ↔ ∃ key, (who, key) ∈ m.leaving := by
  unfold isLeaving
  rw [List.any_eq_true]
  constructor
  · rintro ⟨⟨owner, key⟩, hmem, howner⟩
    obtain rfl : owner = who := by simpa using howner
    exact ⟨key, hmem⟩
  · rintro ⟨key, hmem⟩
    exact ⟨(who, key), hmem, by simp⟩

theorem isLeaving_eq_false (h : ¬ m.isLeaving who = true) (key : FragmentKey) :
    (who, key) ∉ m.leaving :=
  fun hmem => h (isLeaving_iff.mpr ⟨key, hmem⟩)

theorem handles_after (c : Command) : (m.after who c).handles = m.handles := by
  cases c with
  | acquire k => exact handles_queue
  | release k => exact handles_letGo
  | _ => rfl

theorem leaving_after (c : Command) (h : (other, key) ∈ m.leaving) :
    (other, key) ∈ (m.after who c).leaving := by
  cases c with
  | acquire k => exact (leaving_queue (m := m)).symm ▸ h
  | release k => exact leaving_letGo.mpr (.inl h)
  | _ => exact h

theorem forsaken_after (c : Command) : (m.after who c).forsaken = m.forsaken := by
  cases c with
  | acquire k => exact forsaken_queue
  | release k => exact forsaken_letGo
  | _ => rfl

theorem table_after (c : Command) : (m.after who c).table = m.table := by
  cases c with
  | acquire k => exact table_queue
  | release k => exact table_letGo
  | _ => rfl

theorem Engaged.of_after {c : Command} (h : (m.after who c).Engaged other key) :
    m.Engaged other key := by
  cases c with
  | acquire k => exact h.imp (handles_queue ▸ ·) (leaving_queue ▸ ·)
  | release k => exact h.of_letGo
  | _ => exact h

end Mutexes

/-- Programs in a world, with the mutexes behind the world's locks. -/
structure LockedSystem (α : Type) where
  system : System α
  mutexes : Mutexes := {}

namespace LockedSystem

variable {α : Type}

inductive Move where
  | go (who : Nat)
  | giveUp (who : Nat)
  | pass (seconds : Nat)
  | invalidate (key : FragmentKey)
  deriving DecidableEq

/-- Programs at their beginning, in a world in which no lock is asked for. -/
def start (w : World) (programs : List (Program α)) : LockedSystem α where
  system := .start { w with locks := .empty } programs

/-- What a command comes to. The lock of a key goes to whoever has the key's mutex locked after getting
in line; the queues of the world are only kept along. -/
def reply (s : LockedSystem α) (who : Nat) : (c : Command) → Reply c.Answer × World
  | .acquire key =>
    (if (s.mutexes.queue who key).locked who key then .answer () else .wait,
      { s.system.world with locks := s.system.world.locks.enter key who })
  | c => s.system.world.reply who c

/-- A program settles the locks it is giving back before it goes on, and it takes a reference to a
mutex before it gets in line. A program that runs into an overflow unlocks what it has locked. -/
def go (s : LockedSystem α) (who : Nat) : LockedSystem α :=
  if s.mutexes.isLeaving who then { s with mutexes := s.mutexes.settle who }
  else
    match s.system.rest? who with
    | some (.ask c next) =>
      match s.mutexes.missing? who c with
      | some key => { s with mutexes := s.mutexes.reach who key }
      | none =>
        { system := s.system.resume who next (s.reply who c)
          mutexes :=
            match (s.reply who c).1 with
            | .overflow => (s.mutexes.after who c).letGoAll who
            | _ => s.mutexes.after who c }
    | _ => s

/-- A program that is given up in line only gets out of it, and past that it unlocks what it has
locked. What it was giving back already it still settles. -/
def giveUp (s : LockedSystem α) (who : Nat) : LockedSystem α where
  system := s.system.giveUp who
  mutexes :=
    if s.mutexes.isLeaving who then s.mutexes
    else
      match s.system.rest? who with
      | some (.ask (.acquire key) _) => s.mutexes.forsake who key
      | _ => s.mutexes.letGoAll who

def step (s : LockedSystem α) : Move → LockedSystem α
  | .go who => s.go who
  | .giveUp who => s.giveUp who
  | .pass seconds => { s with system := s.system.step (.pass seconds) }
  | .invalidate key => { s with system := s.system.step (.invalidate key) }

def run (s : LockedSystem α) (moves : List Move) : LockedSystem α := moves.foldl step s

/-- What a move is for the system without its mutexes: nothing, while a program settles a lock or takes
a reference. -/
def act? (s : LockedSystem α) : Move → Option Act
  | .go who =>
    if s.mutexes.isLeaving who then none
    else
      match s.system.rest? who with
      | some (.ask c _) => if (s.mutexes.missing? who c).isSome then none else some (.advance who)
      | _ => none
  | .giveUp who => some (.giveUp who)
  | .pass seconds => some (.pass seconds)
  | .invalidate key => some (.invalidate key)

def acts : LockedSystem α → List Move → List Act
  | _, [] => []
  | s, move :: moves => (s.act? move).toList ++ (s.step move).acts moves

theorem acts_append (s : LockedSystem α) (moves more : List Move) :
    s.acts (moves ++ more) = s.acts moves ++ (s.run moves).acts more := by
  induction moves generalizing s with
  | nil => rfl
  | cons move moves ih =>
    simp only [List.cons_append, acts, ih, List.append_assoc, run, List.foldl_cons]

/-- All that a program can do when it goes on, and what that is for the system without mutexes. -/
inductive Went (s : LockedSystem α) (who : Nat) : Option Act → LockedSystem α → Prop
  | still : (∀ key, (who, key) ∉ s.mutexes.leaving) →
    (∀ c next, s.system.rest? who ≠ some (.ask c next)) → Went s who none s
  | settled {key : FragmentKey} : (who, key) ∈ s.mutexes.leaving →
    Went s who none { s with mutexes := s.mutexes.settle who }
  | reached {key : FragmentKey} {next : Unit → Program α} :
    (∀ key, (who, key) ∉ s.mutexes.leaving) →
    s.system.rest? who = some (.ask (.acquire key) next) →
    s.mutexes.handles.get? (who, key) = none →
    Went s who none { s with mutexes := s.mutexes.reach who key }
  | advanced {c : Command} {next : c.Answer → Program α} :
    (∀ key, (who, key) ∉ s.mutexes.leaving) → s.system.rest? who = some (.ask c next) →
    (∀ key, c = .acquire key → s.mutexes.handles.get? (who, key) ≠ none) →
    (∀ w, s.system.world.reply who c ≠ (.overflow, w)) →
    Went s who (some (.advance who))
      { system := s.system.step (.advance who), mutexes := s.mutexes.after who c }
  | overflowed {c : Command} {next : c.Answer → Program α} {w : World} :
    (∀ key, (who, key) ∉ s.mutexes.leaving) → s.system.rest? who = some (.ask c next) →
    (∀ key, c = .acquire key → s.mutexes.handles.get? (who, key) ≠ none) →
    s.system.world.reply who c = (.overflow, w) →
    Went s who (some (.advance who))
      { system := s.system.step (.advance who),
        mutexes := (s.mutexes.after who c).letGoAll who }

/-- All that giving a program up can do to the mutexes. -/
inductive GaveUp (s : LockedSystem α) (who : Nat) : Mutexes → Prop
  | leaving {key : FragmentKey} : (who, key) ∈ s.mutexes.leaving → GaveUp s who s.mutexes
  | inLine {key : FragmentKey} {next : Unit → Program α} :
    (∀ key, (who, key) ∉ s.mutexes.leaving) →
    s.system.rest? who = some (.ask (.acquire key) next) →
    GaveUp s who (s.mutexes.forsake who key)
  | unlocked : (∀ key, (who, key) ∉ s.mutexes.leaving) →
    (∀ key next, s.system.rest? who ≠ some (.ask (.acquire key) next)) →
    GaveUp s who (s.mutexes.letGoAll who)

theorem gaveUp (s : LockedSystem α) (who : Nat) : GaveUp s who (s.giveUp who).mutexes := by
  unfold giveUp
  simp only
  split
  · next hleaving =>
    obtain ⟨key, hmem⟩ := Mutexes.isLeaving_iff.mp hleaving
    exact .leaving hmem
  · next hleaving =>
    have hnone := Mutexes.isLeaving_eq_false hleaving
    split
    · next key next hrest => exact .inLine hnone hrest
    · next hrest => exact .unlocked hnone hrest

namespace GaveUp

variable {s : LockedSystem α} {who other : Nat} {key : FragmentKey} {m : Mutexes}

theorem handles (h : s.GaveUp who m) (hhandle : m.handles.get? (other, key) ≠ none) :
    s.mutexes.handles.get? (other, key) ≠ none := by
  cases h with
  | leaving => exact hhandle
  | inLine => exact (Mutexes.handles_forsake hhandle).1
  | unlocked => exact Mutexes.handles_letGoAll ▸ hhandle

theorem table (h : s.GaveUp who m) : m.table = s.mutexes.table := by
  cases h with
  | leaving => rfl
  | inLine => exact Mutexes.table_forsake
  | unlocked => exact Mutexes.table_letGoAll

theorem keeps_leaving (h : s.GaveUp who m) (hgone : (other, key) ∈ s.mutexes.leaving) :
    (other, key) ∈ m.leaving := by
  cases h with
  | leaving => exact hgone
  | inLine => exact Mutexes.leaving_forsake.symm ▸ hgone
  | unlocked => exact Mutexes.leaving_letGoAll.mpr (.inl hgone)

theorem engaged (h : s.GaveUp who m) (hengaged : m.Engaged other key) :
    s.mutexes.Engaged other key := by
  cases h with
  | leaving => exact hengaged
  | inLine => exact hengaged.of_forsake
  | unlocked => exact hengaged.of_letGoAll

end GaveUp

/-- What all interleavings keep: the mutexes are what the queues say, and whoever has a reference to
a mutex is in line at it, about to be, or done with it. Nobody has to do with two locks. -/
structure Sound (s : LockedSystem α) : Prop where
  orderly : s.system.Orderly
  agrees : s.mutexes.Agrees s.system.world.locks
  handled : ∀ {who key}, s.mutexes.handles.get? (who, key) ≠ none →
    (who, key) ∈ s.mutexes.leaving ∨ who ∈ s.system.world.locks.queue key ∨
      ∃ next, s.system.rest? who = some (.ask (.acquire key) next)
  single : ∀ {who key key'}, s.mutexes.Engaged who key → s.mutexes.Engaged who key' →
    key = key'

theorem Sound.start (w : World) (jobs : List Job) :
    (start w (jobs.map Job.program)).Sound where
  orderly := .start w jobs
  agrees := .empty
  handled := nofun
  single := by
    rintro who key key' (h | h)
    · exact (h rfl).elim
    · cases h

namespace Sound

variable {s : LockedSystem α} {who : Nat} {key : FragmentKey}

/-- Whoever is about to take a lock has to do with no other. -/
theorem of_acquire (h : s.Sound) {next : Unit → Program α}
    (hrest : s.system.rest? who = some (.ask (.acquire key) next))
    (hleaving : ∀ key, (who, key) ∉ s.mutexes.leaving) {key' : FragmentKey}
    (hengaged : s.mutexes.Engaged who key') : key' = key := by
  rcases hengaged with hhandle | hgone
  · rcases h.handled hhandle with hgone | hqueued | ⟨next', hnext⟩
    · exact (hleaving key' hgone).elim
    · obtain ⟨m, hm, -, hqueues⟩ := h.orderly.placed hrest
      obtain rfl := idle_of_acquire hm
      rcases hqueues key' hqueued with hkey | hcommand
      · cases hkey
      · cases hcommand
        rfl
    · cases hrest.symm.trans hnext
      rfl
  · exact (hleaving key' hgone).elim

/-- Whoever is giving a lock back is in no queue. -/
theorem not_mem_queue_of_leaving (h : s.Sound) (hgone : (who, key) ∈ s.mutexes.leaving)
    (key' : FragmentKey) : who ∉ s.system.world.locks.queue key' := by
  intro hqueued
  obtain rfl := h.single (.inr hgone) (.inl (h.agrees.reached hqueued))
  exact h.agrees.left hgone hqueued

theorem agrees_after (h : s.Sound) {c : Command}
    (hleaving : ∀ key, (who, key) ∉ s.mutexes.leaving)
    (hreached : ∀ key, c = .acquire key → s.mutexes.handles.get? (who, key) ≠ none) :
    (s.mutexes.after who c).Agrees (s.system.world.locks.after who c) := by
  cases c with
  | acquire key => exact h.agrees.queue (hreached key rfl) (hleaving key)
  | release key => exact h.agrees.letGo h.orderly.tidy who key
  | _ => exact h.agrees

/-- The line of a mutex grants what the queue of its key does. -/
theorem reply_eq (h : s.Sound) {c : Command} (hleaving : ∀ key, (who, key) ∉ s.mutexes.leaving)
    (hreached : ∀ key, c = .acquire key → s.mutexes.handles.get? (who, key) ≠ none) :
    s.reply who c = s.system.world.reply who c := by
  cases c with
  | acquire key =>
    have hagrees := h.agrees.queue (hreached key rfl) (hleaving key)
    have hsame : (s.mutexes.queue who key).locked who key =
        ((s.system.world.locks.enter key who).holder? key == some who) :=
      Bool.eq_iff_iff.mpr (hagrees.locked_iff_holder.trans beq_iff_eq.symm)
    simp only [reply, World.reply, World.acquire, hsame]
    rfl
  | _ => rfl

theorem went (h : s.Sound) (who : Nat) : Went s who (s.act? (.go who)) (s.go who) := by
  simp only [go, act?]
  split
  · next hleaving =>
    obtain ⟨key, hmem⟩ := Mutexes.isLeaving_iff.mp hleaving
    exact .settled hmem
  · next hleaving =>
    have hnone := Mutexes.isLeaving_eq_false hleaving
    split
    · next c next hrest =>
      cases hmissing : s.mutexes.missing? who c with
      | some key =>
        obtain ⟨rfl, hhandle⟩ := Mutexes.missing?_eq_some hmissing
        exact .reached hnone hrest hhandle
      | none =>
        have hreached := Mutexes.missing?_eq_none hmissing
        -- What the line of the mutex grants is what the world would have granted.
        simp only [h.reply_eq hnone hreached, ← System.step_advance hrest]
        rcases hreply : s.system.world.reply who c with ⟨_ | _ | _, w⟩
        · exact .advanced hnone hrest hreached (by simp [hreply])
        · exact .advanced hnone hrest hreached (by simp [hreply])
        · exact .overflowed hnone hrest hreached hreply
    · next hdone => exact .still hnone hdone

/-- Others stay where they are with their references when a program goes on. -/
private theorem handled_other (h : s.Sound) {other : Nat} (hne : other ≠ who)
    (hhandle : s.mutexes.handles.get? (other, key) ≠ none) :
    (other, key) ∈ s.mutexes.leaving ∨
      other ∈ (s.system.step (.advance who)).world.locks.queue key ∨
      ∃ next, (s.system.step (.advance who)).rest? other = some (.ask (.acquire key) next) := by
  rw [System.rest?_advance_ne hne]
  exact (h.handled hhandle).imp_right fun hrest =>
    hrest.imp_left (System.mem_queue_advance h.orderly.tidy hne)

/-- Whoever has a reference is in line after it has gone on, unless it gives the lock back. -/
private theorem handled_self (h : s.Sound) {c : Command} {next : c.Answer → Program α}
    (hrest : s.system.rest? who = some (.ask c next))
    (hhandle : s.mutexes.handles.get? (who, key) ≠ none) :
    (who, key) ∈ (s.mutexes.after who c).leaving ∨
      who ∈ (s.system.world.locks.after who c).queue key := by
  rcases h.handled hhandle with hgone | hqueued | ⟨next', hnext⟩
  · exact .inl (Mutexes.leaving_after c hgone)
  · cases c with
    | acquire k => exact .inr (Locks.mem_queue_enter.mpr (.inl hqueued))
    | release k =>
      obtain ⟨m, hm, -, hqueues⟩ := h.orderly.placed hrest
      rcases hqueues key hqueued with hkey | hcommand
      · obtain rfl := Option.some.inj ((key?_of_release hm).1.symm.trans hkey)
        exact .inl (Mutexes.leaving_letGo.mpr (.inr ⟨⟨rfl, rfl⟩, hhandle⟩))
      · cases hcommand
    | _ => exact .inr hqueued
  · cases hrest.symm.trans hnext
    exact .inr (Locks.mem_queue_enter.mpr (.inr ⟨rfl, rfl⟩))

private theorem settled (h : s.Sound) (who : Nat) :
    Sound { s with mutexes := s.mutexes.settle who } where
  orderly := h.orderly
  agrees := h.agrees.settle who
  handled := by
    intro other key hhandle
    rcases h.handled (Mutexes.handles_settle hhandle) with hgone | hrest
    · exact .inl (Mutexes.leaving_settle_of_handle hgone hhandle)
    · exact .inr hrest
  single hkey hkey' := h.single hkey.of_settle hkey'.of_settle

private theorem reached (h : s.Sound) {next : Unit → Program α}
    (hrest : s.system.rest? who = some (.ask (.acquire key) next))
    (hleaving : ∀ key, (who, key) ∉ s.mutexes.leaving) :
    Sound { s with mutexes := s.mutexes.reach who key } where
  orderly := h.orderly
  agrees := h.agrees.reach who key
  handled := by
    intro other key' hhandle
    rw [Mutexes.leaving_reach]
    rcases Mutexes.handles_reach hhandle with hhandle | ⟨rfl, rfl⟩
    · exact h.handled hhandle
    · exact .inr (.inr ⟨next, hrest⟩)
  single := by
    intro other key' key'' hkey' hkey''
    rcases hkey'.of_reach, hkey''.of_reach with ⟨hold | ⟨rfl, rfl⟩, hold' | ⟨hwho, rfl⟩⟩
    · exact h.single hold hold'
    · exact h.of_acquire hrest hleaving (hwho ▸ hold)
    · exact (h.of_acquire hrest hleaving hold').symm
    · rfl

theorem go (h : s.Sound) (who : Nat) : (s.go who).Sound := by
  have hwent := h.went who
  generalize s.go who = s' at hwent
  generalize s.act? (.go who) = act at hwent
  cases hwent with
  | still => exact h
  | settled => exact h.settled who
  | reached hleaving hrest => exact h.reached hrest hleaving
  | @advanced c next hleaving hrest hreached hreply =>
    have hlocks := System.locks_advance hrest hreply
    refine ⟨h.orderly.step (.advance who), ?_, ?_, ?_⟩
    · rw [hlocks]
      exact h.agrees_after hleaving hreached
    · intro other key hhandle
      rw [Mutexes.handles_after] at hhandle
      by_cases hwho : other = who
      · subst hwho
        rw [hlocks]
        exact (h.handled_self hrest hhandle).imp_right .inl
      · exact (h.handled_other hwho hhandle).imp_left (Mutexes.leaving_after c)
    · exact fun hkey hkey' => h.single hkey.of_after hkey'.of_after
  | @overflowed c next w hleaving hrest hreached hreply =>
    refine ⟨h.orderly.step (.advance who), ?_, ?_, ?_⟩
    · rw [System.locks_advance_overflow hrest hreply]
      exact (h.agrees_after hleaving hreached).letGoAll (h.orderly.tidy.after who c) who
    · intro other key hhandle
      rw [Mutexes.handles_letGoAll] at hhandle
      rw [Mutexes.leaving_letGoAll]
      by_cases hwho : other = who
      · exact .inl (.inr ⟨hwho, hhandle⟩)
      · rw [Mutexes.handles_after] at hhandle
        exact (h.handled_other hwho hhandle).imp_left fun hgone =>
          .inl (Mutexes.leaving_after c hgone)
    · exact fun hkey hkey' => h.single hkey.of_letGoAll.of_after hkey'.of_letGoAll.of_after

/-- Whoever is given up is in no line any more, and the others are where they were. -/
private theorem agrees_gaveUp (h : s.Sound) {m : Mutexes} (hgave : s.GaveUp who m) :
    m.Agrees (s.system.world.locks.dismiss who) := by
  cases hgave with
  | leaving hgone =>
    refine h.agrees.congr fun key => ?_
    rw [Locks.queue_dismiss, List.erase_of_not_mem (h.not_mem_queue_of_leaving hgone key)]
  | @inLine key next hleaving hrest =>
    refine (h.agrees.forsake h.orderly.tidy who key).congr fun key' => ?_
    rw [Locks.queue_dismiss, Locks.queue_leave]
    split
    · next heq => rw [heq]
    · next hne =>
      refine List.erase_of_not_mem fun hqueued => hne ?_
      exact h.of_acquire hrest hleaving (.inl (h.agrees.reached hqueued))
  | unlocked => exact h.agrees.letGoAll h.orderly.tidy who

/-- Whoever is given up and has still a reference is giving the lock back. -/
private theorem leaving_of_gaveUp (h : s.Sound) {m : Mutexes} (hgave : s.GaveUp who m)
    (hhandle : m.handles.get? (who, key) ≠ none) : (who, key) ∈ m.leaving := by
  cases hgave with
  | @leaving key' hgone =>
    obtain rfl := h.single (.inl hhandle) (.inr hgone)
    exact hgone
  | @inLine key' next hleaving hrest =>
    obtain ⟨hold, hother⟩ := Mutexes.handles_forsake hhandle
    exact (hother ⟨rfl, h.of_acquire hrest hleaving (.inl hold)⟩).elim
  | unlocked =>
    exact Mutexes.leaving_letGoAll.mpr (.inr ⟨rfl, Mutexes.handles_letGoAll ▸ hhandle⟩)

theorem giveUp (h : s.Sound) (who : Nat) : (s.giveUp who).Sound := by
  have hgave := s.gaveUp who
  refine ⟨h.orderly.step (.giveUp who), h.agrees_gaveUp hgave, ?_, ?_⟩
  · intro other key hhandle
    by_cases hwho : other = who
    · subst hwho
      exact .inl (h.leaving_of_gaveUp hgave hhandle)
    · rcases h.handled (hgave.handles hhandle) with hgone | hqueued | ⟨next, hrest⟩
      · exact .inl (hgave.keeps_leaving hgone)
      · exact .inr (.inl (h.orderly.tidy.mem_queue_dismiss.mpr ⟨hwho, hqueued⟩))
      · exact .inr (.inr ⟨next, (System.rest?_put_ne hwho _ _).trans hrest⟩)
  · exact fun hkey hkey' => h.single (hgave.engaged hkey) (hgave.engaged hkey')

theorem step (h : s.Sound) (move : Move) : (s.step move).Sound := by
  cases move with
  | go who => exact h.go who
  | giveUp who => exact h.giveUp who
  | pass seconds => exact ⟨h.orderly.step (.pass seconds), h.agrees, h.handled, h.single⟩
  | invalidate key => exact ⟨h.orderly.step (.invalidate key), h.agrees, h.handled, h.single⟩

theorem run (h : s.Sound) (moves : List Move) : (s.run moves).Sound :=
  List.foldlRecOn _ _ h fun _ hs move _ => hs.step move

/-! ## The system behind the mutexes -/

theorem system_step (h : s.Sound) (move : Move) :
    (s.step move).system = s.system.run (s.act? move).toList := by
  cases move with
  | go who =>
    have hwent := h.went who
    simp only [LockedSystem.step]
    generalize s.go who = s' at hwent
    generalize s.act? (.go who) = act at hwent
    cases hwent <;> rfl
  | _ => rfl

/-- A run is a run of the system without mutexes: what comes of taking references, of settling locks
and of granting them by the lines of the mutexes is some interleaving of the programs. -/
theorem run_system (h : s.Sound) (moves : List Move) :
    (s.run moves).system = s.system.run (s.acts moves) := by
  induction moves generalizing s with
  | nil => rfl
  | cons move moves ih =>
    rw [acts, System.run_append, ← h.system_step move]
    exact ih (h.step move)

/-- Whoever is in a queue has nothing to settle, so its next command is a step of the system. -/
theorem system_go (h : s.Sound) {c : Command} {next : c.Answer → Program α}
    (hrest : s.system.rest? who = some (.ask c next)) (hc : ∀ key, c ≠ .acquire key)
    (hqueued : who ∈ s.system.world.locks.queue key) :
    (s.go who).system = s.system.step (.advance who) := by
  have hwent := h.went who
  generalize s.go who = s' at hwent
  generalize s.act? (.go who) = act at hwent
  cases hwent with
  | still _ hdone => exact (hdone c next hrest).elim
  | settled hgone => exact (h.not_mem_queue_of_leaving hgone key hqueued).elim
  | reached _ hacquire =>
    cases hrest.symm.trans hacquire
    exact (hc _ rfl).elim
  | advanced => rfl
  | overflowed => rfl

end Sound

/-- One document is fetched by at most one include at a time, and whoever fetches it has the mutex of
its key locked. And when a fetched document is stored, then while its entry lasts nobody fetches it
again, and whoever looks for it then gets what is stored. -/
theorem one_flight (w : World) (jobs : List Job) (moves : List Move) (key : FragmentKey) :
    let s := (start w (jobs.map Job.program)).run moves
    (∀ i, s.system.Fetches i key → s.mutexes.locked i key = true) ∧
    (∀ i j, s.system.Fetches i key → s.system.Fetches j key → i = j) ∧
    ∀ who content lifetime next expires before after,
      s.system.rest? who = some (.ask (.keep key content lifetime) next) →
      let stored := s.go who
      let between := stored.run before
      let final := between.run after
      stored.system.world.fragments.get? key = some { content, expires } →
      stored.system.undisturbed key (stored.acts (before ++ after)) = true →
      FragmentEntry.isExpired { content, expires } final.system.world.clock.calendar = false →
      final.system.world.fragments.get? key = some { content, expires } ∧
      (∀ i, ¬ final.system.Fetches i key) ∧
      ∀ i p url lifetime q k rest, Page.documentKey url = key → System.Seeks p url lifetime q →
        between.system.rest? i = some (q.bind k) → final.system.rest? i = some rest →
        System.Gets p url lifetime content k rest := by
  intro s
  have hsound : s.Sound := (Sound.start w jobs).run moves
  have hholds : s.system.Holds fun _ => True := by
    rw [(Sound.start w jobs).run_system moves]
    exact (System.start_holds _ jobs).run _
  have hlocked (i : Nat) (hi : s.system.Fetches i key) : s.mutexes.locked i key = true :=
    hsound.agrees.locked_iff_holder.mpr (hi.holder hholds).2
  refine ⟨hlocked, ?_, ?_⟩
  · intro i j hi hj
    have hfirst := hsound.agrees.locked_iff_holder.mp (hlocked i hi)
    have hsecond := hsound.agrees.locked_iff_holder.mp (hlocked j hj)
    exact Option.some.inj (hfirst.symm.trans hsecond)
  · intro who content lifetime next expires before after hwho stored between final
    -- Whoever stores a fetched document has its lock, so there is nothing left for it to settle.
    have hqueued : who ∈ s.system.world.locks.queue key := by
      obtain ⟨m, -, hdisciplined, hlock⟩ := hholds who _ hwho
      exact List.mem_of_head? (hlock key (key?_of_keep hdisciplined))
    have hstored : stored.system = s.system.step (.advance who) :=
      hsound.system_go hwho (fun _ => nofun) hqueued
    have hbetween : between.system = stored.system.run (stored.acts before) :=
      (hsound.go who).run_system before
    have hfinal : final.system = between.system.run (between.acts after) :=
      ((hsound.go who).run before).run_system after
    rw [acts_append, hfinal, hbetween, hstored]
    exact fun hentry hcalm hlasts => hholds.stays_stored hwho hentry hcalm hlasts

end LockedSystem

end EdgeCompose
