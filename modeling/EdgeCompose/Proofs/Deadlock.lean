import EdgeCompose.Proofs.LockedSystem

/-!
No deadlock. Renders that share a world do not block each other: some render can always go on, as
whoever waits for a lock waits for a render that does not wait. Nor does the table of mutexes keep a
mutex that nobody wants, unless a render was given up while it was in line: that render only drops its
reference, and if it was the last one, nobody takes the mutex out of the table (`giveUp_in_line`).
-/

namespace EdgeCompose

open Program

theorem Table.isEmpty_of_get? {κ β : Type} [DecidableEq κ] {t : Table κ β}
    (h : ∀ k, t.get? k = none) : t.isEmpty = true := by
  refine List.isEmpty_iff.mpr (List.eq_nil_iff_forall_not_mem.mpr fun ⟨k, v⟩ hmem => ?_)
  cases (h k).symm.trans (Table.get?_of_mem_entries hmem)

namespace LockedSystem

variable {α : Type}

def Unfinished (s : LockedSystem α) (who : Nat) : Prop :=
  (∃ key, (who, key) ∈ s.mutexes.leaving) ∨
    ∃ c next, s.system.rest? who = some (.ask c next)

/-- A program goes on when it is its turn: it settles a lock, takes a reference, or gives a command
for which it does not have to wait. -/
inductive CanGo (s : LockedSystem α) (who : Nat) : Prop
  | settles {key : FragmentKey} : (who, key) ∈ s.mutexes.leaving → CanGo s who
  | reaches {key : FragmentKey} {next : Unit → Program α} :
    s.system.rest? who = some (.ask (.acquire key) next) →
    s.mutexes.handles.get? (who, key) = none → CanGo s who
  | replies {c : Command} {next : c.Answer → Program α} :
    s.system.rest? who = some (.ask c next) → (∀ w, s.reply who c ≠ (.wait, w)) → CanGo s who

/-- A program has the mutex of a key locked, or is not done with giving it back. -/
def Holding (s : LockedSystem α) (who : Nat) (key : FragmentKey) : Prop :=
  s.mutexes.locked who key = true ∨ (who, key) ∈ s.mutexes.leaving

/-- A program has a reference to the mutex of a key and does not have it locked. -/
def Waiting (s : LockedSystem α) (who : Nat) (key : FragmentKey) : Prop :=
  s.mutexes.handles.get? (who, key) ≠ none ∧ ¬ s.Holding who key

/-- Some program is given up, in a run, when it is about to take the lock of a key. -/
def GivenUpInLine (s : LockedSystem α) (key : FragmentKey) (moves : List Move) : Prop :=
  ∃ before who next after, moves = before ++ .giveUp who :: after ∧
    (s.run before).system.rest? who = some (.ask (.acquire key) next)

variable {s : LockedSystem α} {who : Nat} {key : FragmentKey}

theorem Holding.engaged (h : s.Holding who key) : s.mutexes.Engaged who key := by
  refine h.imp_left fun hlocked => ?_
  obtain ⟨mutex, hmutex, -⟩ := Mutexes.locked_iff.mp hlocked
  simp [hmutex]

/-- Nobody has to do with a lock if nobody has it or waits for it. -/
theorem not_engaged (hholding : ¬ s.Holding who key) (hwaiting : ¬ s.Waiting who key) :
    ¬ s.mutexes.Engaged who key := by
  rintro (hhandle | hgone)
  · exact hwaiting ⟨hhandle, hholding⟩
  · exact hholding (.inr hgone)

namespace Sound

/-- What a program can do leaves the system in another state. -/
theorem go_ne (h : s.Sound) (hgoes : s.CanGo who) : s.go who ≠ s := by
  have hadvances {c : Command} {next : c.Answer → Program α}
      (hleaving : ∀ key, (who, key) ∉ s.mutexes.leaving)
      (hrest : s.system.rest? who = some (.ask c next))
      (hreached : ∀ key, c = .acquire key → s.mutexes.handles.get? (who, key) ≠ none) :
      s.system.step (.advance who) ≠ s.system := by
    cases hgoes with
    | settles hgone => exact (hleaving _ hgone).elim
    | reaches hacquire hnone =>
      cases hrest.symm.trans hacquire
      exact (hreached _ rfl hnone).elim
    | replies hcommand hreply =>
      cases hrest.symm.trans hcommand
      rw [h.reply_eq hleaving hreached] at hreply
      exact System.advance_ne hrest hreply
  have hwent := h.went who
  generalize s.go who = s' at hwent
  generalize s.act? (.go who) = act at hwent
  intro heq
  cases hwent with
  | still hleaving hdone =>
    cases hgoes with
    | settles hgone => exact hleaving _ hgone
    | reaches hrest => exact hdone _ _ hrest
    | replies hrest => exact hdone _ _ hrest
  | settled hgone => exact Mutexes.settle_ne hgone (congrArg mutexes heq)
  | reached _ _ hnone => exact Mutexes.reach_ne hnone (congrArg mutexes heq)
  | advanced hleaving hrest hreached =>
    exact hadvances hleaving hrest hreached (congrArg system heq)
  | overflowed hleaving hrest hreached =>
    exact hadvances hleaving hrest hreached (congrArg system heq)

/-- Whoever does not wait in its queue can go on. -/
theorem canGo (h : s.Sound) {c : Command} {next : c.Answer → Program α}
    (hrest : s.system.rest? who = some (.ask c next))
    (hgoes : ∀ w, s.system.world.reply who c ≠ (.wait, w)) : s.CanGo who := by
  by_cases hleaving : ∃ key, (who, key) ∈ s.mutexes.leaving
  · obtain ⟨key, hgone⟩ := hleaving
    exact .settles hgone
  · by_cases hmissing : ∃ key, c = .acquire key ∧ s.mutexes.handles.get? (who, key) = none
    · obtain ⟨key, rfl, hnone⟩ := hmissing
      exact .reaches hrest hnone
    · refine .replies hrest ?_
      rw [h.reply_eq (fun key hgone => hleaving ⟨key, hgone⟩)
        fun key hc hnone => hmissing ⟨key, hc, hnone⟩]
      exact hgoes

theorem exists_canGo (h : s.Sound) (hleft : s.Unfinished who) : ∃ other, s.CanGo other := by
  rcases hleft with ⟨key, hgone⟩ | ⟨c, next, hrest⟩
  · exact ⟨who, .settles hgone⟩
  · by_cases hwaits : ∃ w, s.system.world.reply who c = (.wait, w)
    · obtain ⟨w, hreply⟩ := hwaits
      obtain ⟨key, -, other, hholder⟩ := System.exists_holder hreply
      obtain ⟨c', next', hother, hgoes⟩ := h.orderly.holder_goes hholder
      exact ⟨other, h.canGo hother hgoes⟩
    · exact ⟨who, h.canGo hrest fun w hreply => hwaits ⟨w, hreply⟩⟩

theorem locks_isEmpty (h : s.Sound) (hnobody : ∀ who key, ¬ s.mutexes.Engaged who key) :
    s.system.world.locks.isEmpty = true := by
  refine Table.isEmpty_of_get? fun key => ?_
  have hqueue : s.system.world.locks.queue key = [] :=
    List.eq_nil_iff_forall_not_mem.mpr fun who hqueued =>
      hnobody who key (.inl (h.agrees.reached hqueued))
  unfold Locks.queue at hqueue
  cases hget : s.system.world.locks.get? key with
  | none => rfl
  | some line =>
    rw [hget, Option.getD_some] at hqueue
    exact (h.orderly.tidy.filled key (hqueue ▸ hget)).elim

/-- When nobody has to do with the lock of a key, its mutex is in the table only if someone was given up
in line at it. -/
theorem mem_forsaken (h : s.Sound) (hnobody : ∀ who, ¬ s.mutexes.Engaged who key)
    (htable : s.mutexes.table.get? key ≠ none) : key ∈ s.mutexes.forsaken := by
  obtain ⟨mutex, hmutex⟩ := Option.ne_none_iff_exists'.mp htable
  have hhandles (who : Nat) : s.mutexes.handles.get? (who, key) = none := by
    by_contra hhandle
    exact hnobody who (.inl hhandle)
  rcases h.agrees.swept hmutex hhandles with ⟨who, hgone⟩ | hforsaken
  · exact (hnobody who (.inr hgone)).elim
  · exact hforsaken

theorem mem_forsaken_step (h : s.Sound) {move : Move}
    (hmem : key ∈ (s.step move).mutexes.forsaken) : key ∈ s.mutexes.forsaken ∨
      ∃ who next, move = .giveUp who ∧ s.system.rest? who = some (.ask (.acquire key) next) := by
  cases move with
  | go who =>
    have hwent := h.went who
    simp only [LockedSystem.step] at hmem
    generalize s.go who = s' at hwent hmem
    generalize s.act? (.go who) = act at hwent
    cases hwent with
    | still => exact .inl hmem
    | settled => exact .inl (Mutexes.forsaken_settle ▸ hmem)
    | reached => exact .inl (Mutexes.forsaken_reach ▸ hmem)
    | advanced => exact .inl (Mutexes.forsaken_after _ ▸ hmem)
    | overflowed => exact .inl (Mutexes.forsaken_after _ ▸ Mutexes.forsaken_letGoAll ▸ hmem)
  | giveUp who =>
    have hgave := s.gaveUp who
    simp only [LockedSystem.step] at hmem
    generalize (s.giveUp who).mutexes = m at hgave hmem
    cases hgave with
    | leaving => exact .inl hmem
    | inLine hleaving hrest =>
      rcases Mutexes.mem_forsaken_forsake hmem with rfl | hmem
      · exact .inr ⟨who, _, rfl, hrest⟩
      · exact .inl hmem
    | unlocked => exact .inl (Mutexes.forsaken_letGoAll ▸ hmem)
  | _ => exact .inl hmem

theorem givenUpInLine (h : s.Sound) {moves : List Move} (hnew : key ∉ s.mutexes.forsaken)
    (hmem : key ∈ (s.run moves).mutexes.forsaken) : s.GivenUpInLine key moves := by
  induction moves generalizing s with
  | nil => exact (hnew hmem).elim
  | cons move moves ih =>
    by_cases hstep : key ∈ (s.step move).mutexes.forsaken
    · obtain ⟨who, next, rfl, hrest⟩ := (h.mem_forsaken_step hstep).resolve_left hnew
      exact ⟨[], who, next, moves, rfl, hrest⟩
    · obtain ⟨before, who, next, after, rfl, hrest⟩ := ih (h.step move) hstep hmem
      exact ⟨move :: before, who, next, after, rfl, hrest⟩

end Sound

/-- Renders that share a world do not block each other. As long as one of them is unfinished, one
can go on, which gets the system on; each has at most one lock, and waits for none while it has
that. And when nobody has a lock or waits for one, a mutex is in the table only if a render was given
up when it was about to lock it; so if no render is given up, the table is empty. -/
theorem no_deadlock (w : World) (jobs : List Job) (moves : List Move) :
    let s := (start w (jobs.map Job.program)).run moves
    (∀ who, s.Unfinished who → ∃ other, s.CanGo other ∧ s.go other ≠ s) ∧
    (∀ who key key', s.Holding who key → s.Holding who key' → key = key') ∧
    (∀ who key key', s.Holding who key → ¬ s.Waiting who key') ∧
    ((∀ who key, ¬ s.Holding who key ∧ ¬ s.Waiting who key) →
      s.system.world.locks.isEmpty = true ∧
      (∀ key, s.mutexes.table.get? key ≠ none →
        (start w (jobs.map Job.program)).GivenUpInLine key moves) ∧
      ((∀ who, .giveUp who ∉ moves) → s.mutexes.table.isEmpty = true)) := by
  intro s
  have hs : s.Sound := (Sound.start w jobs).run moves
  refine ⟨?_, ?_, ?_, ?_⟩
  · intro who hleft
    obtain ⟨other, hgoes⟩ := hs.exists_canGo hleft
    exact ⟨other, hgoes, hs.go_ne hgoes⟩
  · intro who key key' hkey hkey'
    exact hs.single hkey.engaged hkey'.engaged
  · intro who key key' hkey hwaiting
    obtain rfl := hs.single hkey.engaged (.inl hwaiting.1)
    exact hwaiting.2 hkey
  · intro hnobody
    have hengaged (who : Nat) (key : FragmentKey) : ¬ s.mutexes.Engaged who key :=
      not_engaged (hnobody who key).1 (hnobody who key).2
    have hleft (key : FragmentKey) (htable : s.mutexes.table.get? key ≠ none) :
        (start w (jobs.map Job.program)).GivenUpInLine key moves :=
      (Sound.start w jobs).givenUpInLine nofun (hs.mem_forsaken (hengaged · key) htable)
    refine ⟨hs.locks_isEmpty hengaged, hleft, fun hnone => Table.isEmpty_of_get? fun key => ?_⟩
    by_contra htable
    obtain ⟨before, who, next, after, rfl, -⟩ := hleft key htable
    exact hnone who (List.mem_append_right _ List.mem_cons_self)

/-! ## Two renders of one page -/

def twins : LockedSystem (Except ComposeError Text) :=
  start System.twinWorld ([System.twin, System.twin].map Job.program)

def toWaiting : List Move := List.replicate 4 (.go 0) ++ List.replicate 4 (.go 1)

def toDone : List Move := toWaiting ++ List.replicate 12 (.go 0) ++ List.replicate 12 (.go 1)

/-- The first render has the lock of its document, the second one is in line for it. -/
def twinsWaiting : LockedSystem (Except ComposeError Text) := twins.run toWaiting

def twinsDone : LockedSystem (Except ComposeError Text) := twins.run toDone

/-- While one of two renders waits for the other, one of them can go on; and in the end the table of
mutexes, which had the mutex of their document in it, is empty. -/
theorem no_deadlock_twins :
    let key := Page.documentKey System.twinUrl
    (twinsWaiting.Holding 0 key ∧ twinsWaiting.Waiting 1 key ∧
      (∀ key', ¬ twinsWaiting.Waiting 0 key') ∧
      ∃ who, twinsWaiting.CanGo who ∧ twinsWaiting.go who ≠ twinsWaiting) ∧
    twinsWaiting.mutexes.table.isEmpty = false ∧ twinsDone.mutexes.table.isEmpty = true := by
  intro key
  have hreached : twinsWaiting.mutexes.handles.get? (1, key) = some 0 := by decide +kernel
  have hbehind : twinsWaiting.mutexes.locked 1 key = false := by decide +kernel
  have hleaving : twinsWaiting.mutexes.leaving = [] := by decide +kernel
  have hfirst : twinsWaiting.Holding 0 key := .inl (by decide +kernel)
  have hsecond : twinsWaiting.Waiting 1 key := by
    refine ⟨by simp [hreached], ?_⟩
    rintro (hlocked | hgone)
    · cases hlocked.symm.trans hbehind
    · simp [hleaving] at hgone
  have hleft : (twinsWaiting.system.rest? 1).any (fun p => p.command?.isSome) = true := by
    decide +kernel
  have hunfinished : twinsWaiting.Unfinished 1 := by
    obtain ⟨p, hp, hc⟩ := Option.any_eq_true _ _ |>.mp hleft
    cases p with
    | done result => cases hc
    | ask c next => exact .inr ⟨c, next, hp⟩
  have hhandles : twinsDone.mutexes.handles.entries = [] := by decide +kernel
  have hsettled : twinsDone.mutexes.leaving = [] := by decide +kernel
  have hnobody (who : Nat) (key : FragmentKey) :
      ¬ twinsDone.Holding who key ∧ ¬ twinsDone.Waiting who key := by
    have hnone : ¬ twinsDone.mutexes.Engaged who key :=
      Mutexes.not_engaged_of_nil hhandles hsettled
    exact ⟨fun hholding => hnone hholding.engaged, fun hwaiting => hnone (.inl hwaiting.1)⟩
  have hstays (who : Nat) : .giveUp who ∉ toDone := by simp [toDone, toWaiting]
  obtain ⟨hgoes, -, halone, -⟩ :=
    no_deadlock System.twinWorld [System.twin, System.twin] toWaiting
  obtain ⟨-, -, -, hempty⟩ := no_deadlock System.twinWorld [System.twin, System.twin] toDone
  have htable : twinsDone.mutexes.table.isEmpty = true := by
    rw [twinsDone, twins]
    exact (hempty hnobody).2.2 hstays
  exact ⟨⟨hfirst, hsecond, fun key' => halone 0 key key' hfirst, hgoes 1 hunfinished⟩,
    by decide +kernel, htable⟩

/-! ## Renders that are given up in line -/

/-- The mutex of a key is in the table, and nobody has to do with the lock. -/
def LeftOver (s : LockedSystem α) (key : FragmentKey) : Prop :=
  s.mutexes.table.get? key ≠ none ∧ ∀ who, ¬ s.mutexes.Engaged who key

namespace Sound

/-- When the last one that has to do with a lock is given up in line, the mutex is left in the table. -/
theorem giveUp_in_line (h : s.Sound) {next : Unit → Program α}
    (hrest : s.system.rest? who = some (.ask (.acquire key) next))
    (hhandle : s.mutexes.handles.get? (who, key) ≠ none)
    (hleaving : ∀ key, (who, key) ∉ s.mutexes.leaving)
    (hothers : ∀ other, other ≠ who → ¬ s.mutexes.Engaged other key) :
    (s.giveUp who).LeftOver key := by
  have hgave := s.gaveUp who
  obtain ⟨mutex, hmutex⟩ := Option.ne_none_iff_exists'.mp hhandle
  refine ⟨?_, fun other hengaged => ?_⟩
  · simp [hgave.table, h.agrees.tabled hmutex]
  · by_cases hother : other = who
    · subst hother
      generalize (s.giveUp other).mutexes = m at hgave hengaged
      cases hgave with
      | leaving hgone => exact hleaving _ hgone
      | inLine _ hacquire =>
        cases hrest.symm.trans hacquire
        rcases hengaged with hhandle | hgone
        · exact (Mutexes.handles_forsake hhandle).2 ⟨rfl, rfl⟩
        · exact hleaving key (Mutexes.leaving_forsake ▸ hgone)
      | unlocked _ hnot => exact hnot key next hrest
    · exact hothers other hother (hgave.engaged hengaged)

/-- Only one who takes the lock of its key again has to do with a mutex that is left over. -/
theorem leftOver_step (h : s.Sound) (hleft : s.LeftOver key) {move : Move}
    (hmove : ∀ who next, move = .go who → s.system.rest? who ≠ some (.ask (.acquire key) next)) :
    (s.step move).LeftOver key := by
  obtain ⟨htable, hnobody⟩ := hleft
  cases move with
  | go who =>
    have hwent := h.went who
    simp only [LockedSystem.step]
    generalize s.go who = s' at hwent
    generalize s.act? (.go who) = act at hwent
    cases hwent with
    | still => exact ⟨htable, hnobody⟩
    | settled =>
      refine ⟨?_, fun other hengaged => hnobody other hengaged.of_settle⟩
      rwa [Mutexes.table_settle fun other hgone => hnobody other (.inr hgone)]
    | @reached key' next _ hrest =>
      have hne : key ≠ key' := by
        rintro rfl
        exact hmove who next rfl hrest
      refine ⟨?_, fun other hengaged => hnobody other ?_⟩
      · rwa [Mutexes.table_reach hne]
      · exact hengaged.of_reach.resolve_right fun hnew => hne hnew.2
    | advanced =>
      exact ⟨by rwa [Mutexes.table_after], fun other hengaged => hnobody other hengaged.of_after⟩
    | overflowed =>
      refine ⟨?_, fun other hengaged => hnobody other hengaged.of_letGoAll.of_after⟩
      rwa [Mutexes.table_letGoAll, Mutexes.table_after]
  | giveUp who =>
    have hgave := s.gaveUp who
    exact ⟨hgave.table ▸ htable, fun other hengaged => hnobody other (hgave.engaged hengaged)⟩
  | _ => exact ⟨htable, hnobody⟩

/-- A mutex that is left over stays in the table until someone takes the lock of its key again. -/
theorem leftOver_run (h : s.Sound) (hleft : s.LeftOver key) {moves : List Move}
    (hmoves : ∀ before who next after, moves = before ++ .go who :: after →
      (s.run before).system.rest? who ≠ some (.ask (.acquire key) next)) :
    (s.run moves).LeftOver key := by
  induction moves generalizing s with
  | nil => exact hleft
  | cons move moves ih =>
    refine ih (h.step move) (h.leftOver_step hleft ?_) ?_
    · rintro who next rfl
      exact hmoves [] who next moves rfl
    · rintro before who next after rfl
      exact hmoves (move :: before) who next after rfl

end Sound

/-- The first render is done with its document and has settled the lock, when the second one, which got
in line before that, is given up. -/
def twinsForsaken : LockedSystem (Except ComposeError Text) :=
  twinsWaiting.run (List.replicate 12 (.go 0) ++ [.giveUp 1])

/-- Both renders are gone, and the mutex of their document is still in the table. -/
theorem leftOver_twins : twinsForsaken.LeftOver (Page.documentKey System.twinUrl) := by
  have hhandles : twinsForsaken.mutexes.handles.entries = [] := by decide +kernel
  have hleaving : twinsForsaken.mutexes.leaving = [] := by decide +kernel
  exact ⟨by decide +kernel, fun who => Mutexes.not_engaged_of_nil hhandles hleaving⟩

end LockedSystem

end EdgeCompose
