import EdgeCompose.Proofs.Mutexes
import EdgeCompose.Proofs.SingleFlight

/-!
Who is in the queues of keys when renders share a world. Whoever is in the queue of a key either has
its lock or is about to take it, and asks for no other lock meanwhile (`System.Orderly`); so the
first in a queue can always go on (`System.Orderly.holder_goes`).
-/

namespace EdgeCompose

open Program

theorem Locks.mem_queue_after {l : Locks} (hl : l.Tidy) {c : Command} {key : FragmentKey}
    {who other : Nat} (h : other ∈ (l.after who c).queue key) :
    other ∈ l.queue key ∨ other = who ∧ c = .acquire key := by
  cases c with
  | acquire k =>
    rcases Locks.mem_queue_enter.mp h with h | ⟨rfl, rfl⟩
    · exact .inl h
    · exact .inr ⟨rfl, rfl⟩
  | release k => exact .inl (hl.mem_queue_leave.mp h).1
  | _ => exact .inl h

theorem Locks.mem_queue_after_of_ne {l : Locks} (hl : l.Tidy) {c : Command} {key : FragmentKey}
    {who other : Nat} (hne : other ≠ who) (h : other ∈ l.queue key) :
    other ∈ (l.after who c).queue key := by
  cases c with
  | acquire k => exact Locks.mem_queue_enter.mpr (.inl h)
  | release k => exact hl.mem_queue_leave.mpr ⟨h, fun hboth => hne hboth.1⟩
  | _ => exact h

theorem Locks.Tidy.after {l : Locks} (hl : l.Tidy) (who : Nat) (c : Command) :
    (l.after who c).Tidy := by
  cases c with
  | acquire k => exact hl.enter k who
  | release k => exact hl.leave k who
  | _ => exact hl

def Command.locks : Command → Bool
  | .acquire _ | .release _ => true
  | _ => false

theorem key?_next {m : Stage} {c : Command} (hc : c.locks = false) (answer : c.Answer) :
    (lockProtocol.next m c answer).key? = m.key? := by
  cases c with
  | acquire k => cases hc
  | release k => cases hc
  | find k => cases m <;> cases answer <;> rfl
  | _ => cases m <;> rfl

theorem idle_of_acquire {α : Type} {m : Stage} {k : FragmentKey} {next : Unit → Program α}
    (h : (Program.ask (.acquire k) next).Disciplined m) : m = .idle := by
  have hallows := h.1
  cases m with
  | idle => rfl
  | fetching key => cases hallows
  | _ => exact hallows.elim

theorem key?_of_release {α : Type} {m : Stage} {k : FragmentKey} {next : Unit → Program α}
    (h : (Program.ask (.release k) next).Disciplined m) :
    m.key? = some k ∧ (lockProtocol.next m (.release k) ()).key? = none := by
  have hallows := h.1
  cases m with
  | fetching key => exact ⟨congrArg some hallows.symm, rfl⟩
  | settled key => exact ⟨congrArg some hallows.symm, rfl⟩
  | _ => exact hallows.elim

theorem key?_of_keep {α : Type} {m : Stage} {k : FragmentKey} {content : Text}
    {lifetime : Option Nat} {next : Unit → Program α}
    (h : (Program.ask (.keep k content lifetime) next).Disciplined m) : m.key? = some k := by
  have hallows := h.1
  cases m with
  | fetching key => exact congrArg some hallows.symm
  | _ => exact hallows.elim

theorem Program.not_below_self {α : Type} (p : Program α) : ¬ Program.Below p p := by
  induction acc_below p with
  | intro p _ ih => exact fun h => ih p h h

namespace System

variable {α : Type} {s : System α}

/-- Every program is in a stage for which it has the lock, and it is in no queue but that lock's
and that of the lock it is about to take; one that is gone is in no queue. -/
structure Orderly (s : System α) : Prop where
  tidy : s.world.locks.Tidy
  placed : ∀ {who rest}, s.rest? who = some rest → ∃ m : Stage, rest.Disciplined m ∧
    (∀ key, m.key? = some key → s.world.locks.holder? key = some who) ∧
    ∀ key, who ∈ s.world.locks.queue key →
      m.key? = some key ∨ rest.command? = some (.acquire key)
  gone : ∀ {who}, s.rest? who = none → ∀ key, who ∉ s.world.locks.queue key

theorem Orderly.start (w : World) (jobs : List Job) :
    (start { w with locks := .empty } (jobs.map Job.program)).Orderly where
  tidy := Locks.tidy_empty
  placed := by
    intro who rest hrest
    rw [rest?_start, List.getElem?_map, Option.map_eq_some_iff] at hrest
    obtain ⟨j, -, rfl⟩ := hrest
    exact ⟨.idle, j.renderer.compose_disciplined j.wanted j.document, nofun, nofun⟩
  gone _ _ := nofun

/-- A step puts nobody in a queue but one who is about to take the lock. -/
theorem mem_queue_step (hs : s.world.locks.Tidy) {act : Act} {who : Nat} {key : FragmentKey}
    (h : who ∈ (s.step act).world.locks.queue key) :
    who ∈ s.world.locks.queue key ∨
      act = .advance who ∧ ∃ next, s.rest? who = some (.ask (.acquire key) next) := by
  have hafter {i : Nat} {c : Command} {next : c.Answer → Program α} {r : Reply c.Answer}
      {w : World} (hi : s.rest? i = some (.ask c next)) (hreply : s.world.reply i c = (r, w))
      (hmem : who ∈ w.locks.queue key) : who ∈ s.world.locks.queue key ∨
        Act.advance i = .advance who ∧
          ∃ next, s.rest? who = some (.ask (.acquire key) next) := by
    rw [(World.Replied.of_reply hreply).locks] at hmem
    rcases Locks.mem_queue_after hs hmem with hmem | ⟨rfl, rfl⟩
    · exact .inl hmem
    · exact .inr ⟨rfl, next, hi⟩
  have hstepped := stepped s act
  generalize s.step act = s' at hstepped h
  cases hstepped with
  | answered hi hreply => exact hafter hi hreply h
  | waited hi hreply => exact hafter hi hreply h
  | @overflowed i c _ _ hi hreply =>
    have htidy := hs.after i c
    rw [← (World.Replied.of_reply hreply).locks] at htidy
    exact hafter hi hreply (htidy.mem_queue_dismiss.mp h).2
  | gaveUp => exact .inl (hs.mem_queue_dismiss.mp h).2
  | _ => exact .inl h

theorem tidy_step (hs : s.world.locks.Tidy) (act : Act) : (s.step act).world.locks.Tidy := by
  have hafter {i : Nat} {c : Command} {r : Reply c.Answer} {w : World}
      (hreply : s.world.reply i c = (r, w)) : w.locks.Tidy := by
    rw [(World.Replied.of_reply hreply).locks]
    exact hs.after i c
  have hstepped := stepped s act
  generalize s.step act = s' at hstepped
  cases hstepped with
  | answered _ hreply => exact hafter hreply
  | waited _ hreply => exact hafter hreply
  | overflowed _ hreply => exact (hafter hreply).dismiss _
  | gaveUp => exact hs.dismiss _
  | _ => exact hs

theorem not_mem_queue_giveUp (hs : s.world.locks.Tidy) (who : Nat) (key : FragmentKey) :
    who ∉ (s.giveUp who).world.locks.queue key :=
  fun h => (hs.mem_queue_dismiss.mp h).1 rfl

/-- A program that a step removes is in no queue after it. -/
private theorem gone_step (hs : s.Orderly) {act : Act} {who : Nat}
    (h : (s.step act).rest? who = none) (key : FragmentKey) :
    who ∉ (s.step act).world.locks.queue key := by
  by_cases hrest : s.rest? who = none
  · intro hmem
    rcases mem_queue_step hs.tidy hmem with hmem | ⟨-, next, hnext⟩
    · exact hs.gone hrest key hmem
    · cases hrest.symm.trans hnext
  · have hstepped := stepped s act
    have htidy := tidy_step hs.tidy act
    generalize s.step act = s' at hstepped h htidy
    cases hstepped with
    | @answered i _ _ _ _ hi =>
      by_cases hwho : who = i
      · subst hwho
        cases (rest?_put_self hi _ _).symm.trans h
      · rw [rest?_put_ne hwho] at h
        exact (hrest h).elim
    | @overflowed i c _ w hi hreply =>
      by_cases hwho : who = i
      · subst hwho
        have hleft : w.locks.Tidy := by
          rw [(World.Replied.of_reply hreply).locks]
          exact hs.tidy.after who c
        exact not_mem_queue_giveUp (s := { s with world := w }) hleft who key
      · rw [giveUp, rest?_put_ne hwho] at h
        exact (hrest h).elim
    | @gaveUp i =>
      by_cases hwho : who = i
      · subst hwho
        exact not_mem_queue_giveUp hs.tidy who key
      · rw [giveUp, rest?_put_ne hwho] at h
        exact (hrest h).elim
    | _ => exact (hrest h).elim

/-- After an answer a program is in no queue but that of the lock it has. -/
private theorem key?_of_mem_queue (hs : s.world.locks.Tidy) {who : Nat} {c : Command}
    {next : c.Answer → Program α} {answer : c.Answer} {m : Stage} {w : World}
    (hm : (Program.ask c next).Disciplined m) (hlocks : w.locks = s.world.locks.after who c)
    (hqueues : ∀ key, who ∈ s.world.locks.queue key →
      m.key? = some key ∨ (Program.ask c next).command? = some (.acquire key))
    {key : FragmentKey} (hmem : who ∈ w.locks.queue key) :
    (lockProtocol.next m c answer).key? = some key := by
  rw [hlocks] at hmem
  cases c with
  | acquire k =>
    obtain rfl := idle_of_acquire hm
    rcases Locks.mem_queue_enter.mp hmem with hold | ⟨-, rfl⟩
    · rcases hqueues key hold with hkey | hcommand
      · cases hkey
      · cases hcommand
        rfl
    · rfl
  | release k =>
    obtain ⟨hold, hleft⟩ := hs.mem_queue_leave.mp hmem
    rcases hqueues key hold with hkey | hcommand
    · have hk := (key?_of_release hm).1.symm.trans hkey
      exact (hleft ⟨rfl, (Option.some.inj hk).symm⟩).elim
    · cases hcommand
  | _ =>
    rw [key?_next rfl answer]
    rcases hqueues key hmem with hkey | hcommand
    · exact hkey
    · cases hcommand

theorem Orderly.step (hs : s.Orderly) (act : Act) : (s.step act).Orderly where
  tidy := tidy_step hs.tidy act
  gone := gone_step hs
  placed := by
    intro who rest hrest
    by_cases hact : act = .advance who
    · subst hact
      have hqueue (key : FragmentKey)
          (hmem : who ∈ (s.step (.advance who)).world.locks.queue key) :=
        mem_queue_step hs.tidy hmem
      have hstepped := stepped s (.advance who)
      generalize s.step (.advance who) = s' at hstepped hrest hqueue
      cases hstepped with
      | still => exact hs.placed hrest
      | @answered _ c next answer w hwho hreply =>
        obtain ⟨m, hm, hholds, hqueues⟩ := hs.placed hwho
        have hreplied := World.Replied.of_reply hreply
        rw [rest?_put_self hwho] at hrest
        cases hrest
        refine ⟨_, hm.2 answer trivial, holder?_next hreplied hm.1 hholds,
          fun key hmem => .inl ?_⟩
        exact key?_of_mem_queue hs.tidy hm hreplied.locks hqueues hmem
      | @waited _ c next w hwho hreply =>
        have hsame : s.rest? who = some rest := hrest
        obtain ⟨m, hm, hholds, hqueues⟩ := hs.placed hsame
        refine ⟨m, hm, fun key hkey => ?_, fun key hmem => ?_⟩
        · cases World.Replied.of_reply hreply with
          | queued => exact Locks.holder?_enter (hholds key hkey) _ _
        · rcases hqueue key hmem with hmem | ⟨-, next', hnext⟩
          · exact hqueues key hmem
          · cases hsame.symm.trans hnext
            exact .inr rfl
      | overflowed =>
        rw [rest?_giveUp_self] at hrest
        cases hrest
    · obtain ⟨m, hm, hholds, hqueues⟩ := hs.placed (rest?_step_other hact hrest)
      refine ⟨m, hm, fun key hkey => holder?_step_other hact hrest (hholds key hkey), ?_⟩
      intro key hmem
      exact hqueues key ((mem_queue_step hs.tidy hmem).resolve_right fun h => hact h.1)

/-- What a program does leaves the others in their queues. -/
theorem mem_queue_advance (hs : s.world.locks.Tidy) {who other : Nat} (hne : other ≠ who)
    {key : FragmentKey} (h : other ∈ s.world.locks.queue key) :
    other ∈ (s.step (.advance who)).world.locks.queue key := by
  have hafter {c : Command} {r : Reply c.Answer} {w : World}
      (hreply : s.world.reply who c = (r, w)) : other ∈ w.locks.queue key := by
    rw [(World.Replied.of_reply hreply).locks]
    exact Locks.mem_queue_after_of_ne hs hne h
  have hstepped := stepped s (.advance who)
  generalize s.step (.advance who) = s' at hstepped
  cases hstepped with
  | still => exact h
  | answered _ hreply => exact hafter hreply
  | waited _ hreply => exact hafter hreply
  | @overflowed _ c _ _ _ hreply =>
    have htidy := hs.after who c
    rw [← (World.Replied.of_reply hreply).locks] at htidy
    exact htidy.mem_queue_dismiss.mpr ⟨hne, hafter hreply⟩

/-- Whoever has to wait is about to take a lock that has a holder. -/
theorem exists_holder {who : Nat} {c : Command} {w : World}
    (hreply : s.world.reply who c = (.wait, w)) :
    ∃ key, c = .acquire key ∧ ∃ other, s.world.locks.holder? key = some other := by
  cases World.Replied.of_reply hreply with
  | @queued key hother =>
    unfold Locks.holder? at hother ⊢
    rw [Locks.queue_enter] at hother
    refine ⟨key, rfl, ?_⟩
    cases hqueue : s.world.locks.queue key with
    | nil => simp [hqueue] at hother
    | cons other rest => exact ⟨other, rfl⟩

/-- The holder of a lock does not have to wait: it is past taking it, or about to take it. -/
theorem Orderly.holder_goes (hs : s.Orderly) {who : Nat} {key : FragmentKey}
    (h : s.world.locks.holder? key = some who) :
    ∃ c next, s.rest? who = some (.ask c next) ∧ ∀ w, s.world.reply who c ≠ (.wait, w) := by
  have hmem : who ∈ s.world.locks.queue key := List.mem_of_head? h
  cases hrest : s.rest? who with
  | none => exact (hs.gone hrest key hmem).elim
  | some rest =>
    obtain ⟨m, hm, -, hqueues⟩ := hs.placed hrest
    have hplace := hqueues key hmem
    cases rest with
    | done a =>
      obtain rfl : m = .idle := hm
      rcases hplace with hkey | hcommand
      · cases hkey
      · cases hcommand
    | ask c next =>
      refine ⟨c, next, rfl, fun w hreply => ?_⟩
      cases World.Replied.of_reply hreply with
      | queued hother =>
        obtain rfl := idle_of_acquire hm
        rcases hplace with hkey | hcommand
        · cases hkey
        · cases hcommand
          exact hother (Locks.holder?_enter h key who)

/-- A program that does not have to wait leaves the system in another state. -/
theorem advance_ne {who : Nat} {c : Command} {next : c.Answer → Program α}
    (hrest : s.rest? who = some (.ask c next)) (hgoes : ∀ w, s.world.reply who c ≠ (.wait, w)) :
    s.step (.advance who) ≠ s := by
  intro heq
  have hstepped := stepped s (.advance who)
  have hsame : (s.step (.advance who)).rest? who = some (.ask c next) := by rw [heq, hrest]
  generalize s.step (.advance who) = s' at hstepped hsame
  cases hstepped with
  | still hdone => exact hdone _ _ hrest
  | @answered _ _ _ answer _ hwho =>
    rw [rest?_put_self hwho] at hsame
    cases hrest.symm.trans hwho
    have hbelow := Program.Below.next c next answer
    rw [Option.some.inj hsame] at hbelow
    exact not_below_self _ hbelow
  | waited hwho hreply =>
    cases hrest.symm.trans hwho
    exact hgoes _ hreply
  | overflowed =>
    rw [rest?_giveUp_self] at hsame
    cases hsame

theorem rest?_advance_ne {who other : Nat} (hne : other ≠ who) :
    (s.step (.advance who)).rest? other = s.rest? other := by
  have hstepped := stepped s (.advance who)
  generalize s.step (.advance who) = s' at hstepped
  cases hstepped with
  | answered => exact rest?_put_ne hne _ _
  | overflowed => exact rest?_put_ne hne _ _
  | _ => rfl

theorem locks_advance {who : Nat} {c : Command} {next : c.Answer → Program α}
    (h : s.rest? who = some (.ask c next)) (hends : ∀ w, s.world.reply who c ≠ (.overflow, w)) :
    (s.step (.advance who)).world.locks = s.world.locks.after who c := by
  have hreplied := (World.replied s.world who c).locks
  rw [step_advance h]
  cases hreply : s.world.reply who c with
  | mk reply w =>
    rw [hreply] at hreplied
    cases reply with
    | overflow => exact (hends w hreply).elim
    | _ => exact hreplied

theorem locks_advance_overflow {who : Nat} {c : Command} {next : c.Answer → Program α}
    {w : World} (h : s.rest? who = some (.ask c next))
    (hreply : s.world.reply who c = (.overflow, w)) :
    (s.step (.advance who)).world.locks = (s.world.locks.after who c).dismiss who := by
  rw [step_advance h, hreply]
  exact congrArg (Locks.dismiss · who) (World.Replied.of_reply hreply).locks

end System

end EdgeCompose
