import Mathlib.Data.List.Nodup
import Mathlib.Logic.Function.Basic
import EdgeCompose.Proofs.LockDiscipline

/-!
The mutexes behind the locks of keys. Whoever wants the lock of a key takes a reference to the
key's mutex out of a table, where a mutex is made if there is none, and then gets in the line of
the mutex. Whoever gives the lock back leaves the line, drops the reference, and takes the mutex
out of the table if the table's reference is the last one. Each of these is a step of its own, and
others may do theirs between any two of them. Whoever is given up in line only drops the reference.
`Mutexes.Agrees` says that through all of this the table has the one mutex that everybody who wants a
key is in line at, so that the lines are the queues of `Locks`, and that a mutex which nobody refers
to is about to be taken out, unless someone was given up in its line.
-/

namespace EdgeCompose

/-! ## Queues -/

namespace Locks

/-- Nobody is in a queue twice, and a queue that nobody is in is not in the table. -/
structure Tidy (l : Locks) : Prop where
  nodup : ∀ key, (l.queue key).Nodup
  filled : ∀ key, l.get? key ≠ some []

theorem tidy_empty : Tidy .empty where
  nodup _ := .nil
  filled _ := nofun

theorem mem_queue_enter {l : Locks} {k key : FragmentKey} {who other : Nat} :
    other ∈ (l.enter k who).queue key ↔ other ∈ l.queue key ∨ other = who ∧ key = k := by
  rw [queue_enter]
  by_cases hk : key = k
  · subst hk
    by_cases hmem : who ∈ l.queue key
    · simp only [hmem, not_true_eq_false, and_false, if_false, and_true, iff_self_or]
      rintro rfl
      exact hmem
    · simp [hmem]
  · simp [hk]

theorem Tidy.enter {l : Locks} (h : l.Tidy) (k : FragmentKey) (who : Nat) :
    (l.enter k who).Tidy where
  nodup key := by
    rw [queue_enter]
    split
    · next hnew => exact (h.nodup k).append (List.nodup_singleton who) (by simpa using hnew.2)
    · exact h.nodup key
  filled key := by
    unfold Locks.enter
    split
    · exact h.filled key
    · rw [Table.get?_insert]
      split
      · simp
      · exact h.filled key

theorem Tidy.leave {l : Locks} (h : l.Tidy) (k : FragmentKey) (who : Nat) :
    (l.leave k who).Tidy where
  nodup key := by
    rw [queue_leave]
    split
    · exact (h.nodup k).erase who
    · exact h.nodup key
  filled key := by
    unfold Locks.leave
    split
    · rw [Table.get?_erase]
      split
      · exact (Option.some_ne_none _).symm
      · exact h.filled key
    · next hrest =>
      rw [Table.get?_insert]
      split
      · simpa using hrest
      · exact h.filled key

/-- Whoever leaves a queue is in it no more. -/
theorem Tidy.mem_queue_leave {l : Locks} (h : l.Tidy) {k key : FragmentKey} {who other : Nat} :
    other ∈ (l.leave k who).queue key ↔ other ∈ l.queue key ∧ ¬ (other = who ∧ key = k) := by
  rw [queue_leave]
  by_cases hk : key = k
  · subst hk
    simp only [if_true, (h.nodup key).mem_erase_iff, and_true]
    exact and_comm
  · simp [hk]

theorem queue_foldl_leave (l : Locks) {keys : List FragmentKey} (hkeys : keys.Nodup) (who : Nat)
    (key : FragmentKey) : (keys.foldl (fun l k => l.leave k who) l).queue key =
      if key ∈ keys then (l.queue key).erase who else l.queue key := by
  induction keys generalizing l with
  | nil => rfl
  | cons k keys ih =>
    rw [List.nodup_cons] at hkeys
    rw [List.foldl_cons, ih _ hkeys.2, queue_leave]
    by_cases hk : key = k
    · subst hk
      simp [hkeys.1]
    · simp [hk]

theorem queue_eq_nil_of_not_mem {l : Locks} {key : FragmentKey} (h : key ∉ l.keys) :
    l.queue key = [] := by
  unfold queue
  cases hget : l.get? key with
  | none => rfl
  | some line => exact (h (List.mem_map_of_mem (Table.mem_entries_of_get? hget))).elim

theorem queue_dismiss (l : Locks) (who : Nat) (key : FragmentKey) :
    (l.dismiss who).queue key = (l.queue key).erase who := by
  have hkeys : l.keys.Nodup := l.nodup
  unfold dismiss
  rw [queue_foldl_leave l hkeys]
  split
  · rfl
  · next hmem => rw [queue_eq_nil_of_not_mem hmem, List.erase_nil]

theorem Tidy.dismiss {l : Locks} (h : l.Tidy) (who : Nat) : (l.dismiss who).Tidy :=
  List.foldlRecOn _ _ h fun _ hl k _ => hl.leave k who

theorem Tidy.mem_queue_dismiss {l : Locks} (h : l.Tidy) {key : FragmentKey} {who other : Nat} :
    other ∈ (l.dismiss who).queue key ↔ other ≠ who ∧ other ∈ l.queue key := by
  rw [queue_dismiss, (h.nodup key).mem_erase_iff]

end Locks

/-! ## Mutexes -/

/-- A mutex is known by its number, a reference to one by who has it and for which key. -/
structure Mutexes where
  table : Table FragmentKey Nat := .empty
  handles : Table (Nat × FragmentKey) Nat := .empty
  /-- Who is in line at a mutex; the first one has it locked. -/
  lines : Nat → List Nat := fun _ => []
  /-- The locks that are being given back, and by whom. -/
  leaving : List (Nat × FragmentKey) := []
  /-- The keys at whose mutexes someone was given up in line. -/
  forsaken : List FragmentKey := []
  made : Nat := 0

namespace Mutexes

def references (m : Mutexes) (mutex : Nat) : Nat :=
  1 + m.handles.entries.countP fun handle => handle.2 == mutex

def reach (m : Mutexes) (who : Nat) (key : FragmentKey) : Mutexes :=
  match m.table.get? key with
  | some mutex => { m with handles := m.handles.insert (who, key) mutex }
  | none =>
    { m with
      table := m.table.insert key m.made
      handles := m.handles.insert (who, key) m.made
      made := m.made + 1 }

/-- Gets in line, once. -/
def queue (m : Mutexes) (who : Nat) (key : FragmentKey) : Mutexes :=
  match m.handles.get? (who, key) with
  | some mutex =>
    if who ∈ m.lines mutex then m
    else { m with lines := Function.update m.lines mutex (m.lines mutex ++ [who]) }
  | none => m

/-- Unlocks the mutex of a key; what remains to be done about it is left to `settle`. -/
def letGo (m : Mutexes) (who : Nat) (key : FragmentKey) : Mutexes :=
  match m.handles.get? (who, key) with
  | some mutex =>
    { m with
      lines := Function.update m.lines mutex ((m.lines mutex).erase who)
      leaving := m.leaving ++ [(who, key)] }
  | none => m

def letGoEach (m : Mutexes) (who : Nat) : List FragmentKey → Mutexes
  | [] => m
  | key :: keys => (m.letGo who key).letGoEach who keys

def letGoAll (m : Mutexes) (who : Nat) : Mutexes :=
  m.letGoEach who ((m.handles.keys.filter fun handle => handle.1 == who).map Prod.snd)

/-- Gets out of line without having had the lock: the reference is dropped, and the table is not looked
at. -/
def forsake (m : Mutexes) (who : Nat) (key : FragmentKey) : Mutexes :=
  match m.handles.get? (who, key) with
  | some mutex =>
    { m with
      handles := m.handles.erase (who, key)
      lines := Function.update m.lines mutex ((m.lines mutex).erase who)
      forsaken := key :: m.forsaken }
  | none => m

def locked (m : Mutexes) (who : Nat) (key : FragmentKey) : Bool :=
  (m.handles.get? (who, key)).any fun mutex => (m.lines mutex).head? == some who

/-- The next step of giving a lock back: the reference is dropped, and once it is, the mutex is
taken out of the table if nobody else refers to it. -/
def settle (m : Mutexes) (who : Nat) : Mutexes :=
  match m.leaving.find? fun lock => lock.1 == who with
  | none => m
  | some lock =>
    if m.handles.contains lock then { m with handles := m.handles.erase lock }
    else
      { m with
        table :=
          if (m.table.get? lock.2).any fun mutex => m.references mutex == 1 then
            m.table.erase lock.2
          else m.table
        leaving := m.leaving.erase lock }

theorem locked_iff {m : Mutexes} {who : Nat} {key : FragmentKey} : m.locked who key = true ↔
    ∃ mutex, m.handles.get? (who, key) = some mutex ∧ (m.lines mutex).head? = some who := by
  simp [locked, Option.any_eq_true]

/-- Only the table refers to a mutex if nobody has a reference to it. -/
theorem references_eq_one {m : Mutexes} {mutex : Nat} :
    m.references mutex = 1 ↔ ∀ handle, m.handles.get? handle ≠ some mutex := by
  unfold references
  rw [Nat.add_eq_left, List.countP_eq_zero]
  constructor
  · intro h handle hget
    exact h _ (Table.mem_entries_of_get? hget) (by simp)
  · rintro h ⟨handle, mutex'⟩ hmem heq
    have hsame : mutex' = mutex := by simpa using heq
    exact h handle (hsame ▸ Table.get?_of_mem_entries hmem)

/-- The mutexes and the queues of keys say the same. -/
structure Agrees (m : Mutexes) (l : Locks) : Prop where
  /-- Who has a reference for a key has it to the mutex in the table. -/
  tabled : ∀ {who key mutex}, m.handles.get? (who, key) = some mutex →
    m.table.get? key = some mutex
  lined : ∀ {key mutex}, m.table.get? key = some mutex → m.lines mutex = l.queue key
  untabled : ∀ {key}, m.table.get? key = none → l.queue key = []
  reached : ∀ {who key}, who ∈ l.queue key → m.handles.get? (who, key) ≠ none
  left : ∀ {who key}, (who, key) ∈ m.leaving → who ∉ l.queue key
  distinct : ∀ {key key' mutex}, m.table.get? key = some mutex →
    m.table.get? key' = some mutex → key = key'
  numbered : ∀ {key mutex}, m.table.get? key = some mutex → mutex < m.made
  unmade : ∀ {mutex}, m.made ≤ mutex → m.lines mutex = []
  /-- A mutex to which only the table refers is about to be taken out, or has been left there. -/
  swept : ∀ {key mutex}, m.table.get? key = some mutex →
    (∀ who, m.handles.get? (who, key) = none) →
      (∃ who, (who, key) ∈ m.leaving) ∨ key ∈ m.forsaken

namespace Agrees

variable {m : Mutexes} {l : Locks}

theorem empty : Agrees {} .empty where
  tabled := nofun
  lined := nofun
  untabled _ := rfl
  reached := nofun
  left := nofun
  distinct := nofun
  numbered := nofun
  unmade _ := rfl
  swept := nofun

theorem congr (h : m.Agrees l) {l' : Locks} (hl : ∀ key, l'.queue key = l.queue key) :
    m.Agrees l' where
  tabled := h.tabled
  lined hkey := (h.lined hkey).trans (hl _).symm
  untabled hkey := (hl _).trans (h.untabled hkey)
  reached hmem := h.reached (hl _ ▸ hmem)
  left hmem := hl _ ▸ h.left hmem
  distinct := h.distinct
  numbered := h.numbered
  unmade := h.unmade
  swept := h.swept

/-- One more has a reference to a mutex that is in the table. -/
private theorem referred (h : m.Agrees l) (who : Nat) {key : FragmentKey} {mutex : Nat}
    (htable : m.table.get? key = some mutex) :
    Agrees { m with handles := m.handles.insert (who, key) mutex } l := by
  refine { h with tabled := ?_, reached := ?_, swept := ?_ }
  · intro who' key' mutex' hget
    rw [Table.get?_insert] at hget
    split at hget
    · next heq =>
      cases heq
      cases hget
      exact htable
    · exact h.tabled hget
  · intro who' key' hmem
    rw [Table.get?_insert]
    split
    · exact Option.some_ne_none _
    · exact h.reached hmem
  · intro key' mutex' hget hnone
    refine h.swept hget fun who' => ?_
    have hnone' := hnone who'
    rw [Table.get?_insert] at hnone'
    split at hnone'
    · cases hnone'
    · exact hnone'

/-- A mutex is made for a key, and one has a reference to it. -/
private theorem introduced (h : m.Agrees l) (who : Nat) {key : FragmentKey}
    (hkey : m.table.get? key = none) :
    Agrees { m with
      table := m.table.insert key m.made
      handles := m.handles.insert (who, key) m.made
      made := m.made + 1 } l := by
  have hget {key' : FragmentKey} {mutex : Nat}
      (hnew : (m.table.insert key m.made).get? key' = some mutex) :
      key' = key ∧ mutex = m.made ∨ key' ≠ key ∧ m.table.get? key' = some mutex := by
    rw [Table.get?_insert] at hnew
    split at hnew
    · next heq => exact .inl ⟨heq, (Option.some.inj hnew).symm⟩
    · next hne => exact .inr ⟨hne, hnew⟩
  have hfresh {key' : FragmentKey} : m.table.get? key' ≠ some m.made := fun hold =>
    Nat.lt_irrefl _ (h.numbered hold)
  refine { h with tabled := ?_, lined := ?_, untabled := ?_, reached := ?_, distinct := ?_,
                  numbered := ?_, unmade := ?_, swept := ?_ }
  · intro who' key' mutex hhandle
    rw [Table.get?_insert] at hhandle ⊢
    split at hhandle
    · next heq =>
      cases heq
      simpa using hhandle
    · have htable := h.tabled hhandle
      rw [if_neg, htable]
      rintro rfl
      cases hkey.symm.trans htable
  · intro key' mutex hnew
    rcases hget hnew with ⟨rfl, rfl⟩ | ⟨-, hold⟩
    · exact (h.unmade (Nat.le_refl _)).trans (h.untabled hkey).symm
    · exact h.lined hold
  · intro key' hnone
    rw [Table.get?_insert] at hnone
    split at hnone
    · cases hnone
    · exact h.untabled hnone
  · intro who' key' hmem
    rw [Table.get?_insert]
    split
    · exact Option.some_ne_none _
    · exact h.reached hmem
  · intro key' key'' mutex hnew hnew'
    rcases hget hnew, hget hnew' with
      ⟨⟨rfl, rfl⟩ | ⟨-, hold⟩, ⟨rfl, hmade⟩ | ⟨-, hold'⟩⟩
    · rfl
    · exact (hfresh hold').elim
    · exact (hfresh (hmade ▸ hold)).elim
    · exact h.distinct hold hold'
  · intro key' mutex hnew
    rcases hget hnew with ⟨-, rfl⟩ | ⟨-, hold⟩
    · exact Nat.lt_succ_self _
    · exact Nat.lt_succ_of_lt (h.numbered hold)
  · intro mutex hle
    exact h.unmade (Nat.le_of_succ_le hle)
  · intro key' mutex hnew hnone
    rcases hget hnew with ⟨rfl, -⟩ | ⟨hne, hold⟩
    · have hown := hnone who
      rw [Table.get?_insert_self] at hown
      cases hown
    · refine h.swept hold fun who' => ?_
      have hnone' := hnone who'
      rwa [Table.get?_insert, if_neg (by simp [hne])] at hnone'

theorem reach (h : m.Agrees l) (who : Nat) (key : FragmentKey) : (m.reach who key).Agrees l := by
  unfold Mutexes.reach
  split
  · next htable => exact h.referred who htable
  · next hkey => exact h.introduced who hkey

/-- The line of one mutex changes, and the queue of its key with it. -/
private theorem relined (h : m.Agrees l) {l' : Locks} {key : FragmentKey} {mutex : Nat}
    (htable : m.table.get? key = some mutex)
    (hothers : ∀ key', key' ≠ key → l'.queue key' = l.queue key')
    (hreached : ∀ who ∈ l'.queue key, m.handles.get? (who, key) ≠ none)
    (hleft : ∀ who ∈ l'.queue key, (who, key) ∉ m.leaving) :
    Agrees { m with lines := Function.update m.lines mutex (l'.queue key) } l' := by
  refine { h with lined := ?_, untabled := ?_, reached := ?_, left := ?_, unmade := ?_ }
  · intro key' mutex' hget
    simp only [Function.update_apply]
    split
    · next heq => rw [h.distinct hget (heq ▸ htable)]
    · next hne =>
      have hkey : key' ≠ key := by
        rintro rfl
        exact hne (Option.some.inj (hget.symm.trans htable))
      rw [hothers key' hkey, h.lined hget]
  · intro key' hnone
    have hkey : key' ≠ key := by
      rintro rfl
      cases htable.symm.trans hnone
    rw [hothers key' hkey, h.untabled hnone]
  · intro who key' hmem
    by_cases hkey : key' = key
    · subst hkey
      exact hreached who hmem
    · rw [hothers key' hkey] at hmem
      exact h.reached hmem
  · intro who key' hleaving hmem
    by_cases hkey : key' = key
    · subst hkey
      exact hleft who hmem hleaving
    · rw [hothers key' hkey] at hmem
      exact h.left hleaving hmem
  · intro mutex' hle
    have hne : mutex' ≠ mutex := by
      rintro rfl
      exact Nat.not_lt_of_le hle (h.numbered htable)
    simp only [Function.update_of_ne hne]
    exact h.unmade hle

theorem queue (h : m.Agrees l) {who : Nat} {key : FragmentKey}
    (hhandle : m.handles.get? (who, key) ≠ none) (hstays : (who, key) ∉ m.leaving) :
    (m.queue who key).Agrees (l.enter key who) := by
  obtain ⟨mutex, hmutex⟩ := Option.ne_none_iff_exists'.mp hhandle
  have htable := h.tabled hmutex
  have hline := h.lined htable
  unfold Mutexes.queue
  simp only [hmutex]
  split
  · next hmem =>
    refine h.congr fun key' => ?_
    rw [Locks.queue_enter, if_neg]
    rintro ⟨-, hnew⟩
    exact hnew (hline ▸ hmem)
  · next hnew =>
    have hqueue : m.lines mutex ++ [who] = (l.enter key who).queue key := by
      rw [Locks.queue_enter, if_pos ⟨rfl, hline ▸ hnew⟩, hline]
    rw [hqueue]
    refine h.relined htable ?_ ?_ ?_
    · intro key' hkey
      rw [Locks.queue_enter, if_neg fun hboth => hkey hboth.1]
    · intro other hother
      rcases Locks.mem_queue_enter.mp hother with hother | ⟨rfl, -⟩
      · exact h.reached hother
      · exact hhandle
    · intro other hother
      rcases Locks.mem_queue_enter.mp hother with hother | ⟨rfl, -⟩
      · exact fun hgone => h.left hgone hother
      · exact hstays

/-- Someone gets out of the line of a mutex. -/
private theorem unlined (h : m.Agrees l) (hl : l.Tidy) (who : Nat) {key : FragmentKey} {mutex : Nat}
    (htable : m.table.get? key = some mutex) :
    Agrees { m with lines := Function.update m.lines mutex ((m.lines mutex).erase who) }
      (l.leave key who) := by
  have hqueue : (m.lines mutex).erase who = (l.leave key who).queue key := by
    rw [Locks.queue_leave, if_pos rfl, h.lined htable]
  rw [hqueue]
  refine h.relined htable ?_ ?_ ?_
  · intro key' hkey
    rw [Locks.queue_leave, if_neg hkey]
  · exact fun other hother => h.reached (hl.mem_queue_leave.mp hother).1
  · exact fun other hother hgone => h.left hgone (hl.mem_queue_leave.mp hother).1

/-- Whoever has no reference for a key is not in its queue. -/
private theorem absent (h : m.Agrees l) {who : Nat} {key : FragmentKey}
    (hnone : m.handles.get? (who, key) = none) : m.Agrees (l.leave key who) := by
  refine h.congr fun key' => ?_
  rw [Locks.queue_leave]
  split
  · next heq =>
    subst heq
    exact List.erase_of_not_mem fun hmem => h.reached hmem hnone
  · rfl

theorem letGo (h : m.Agrees l) (hl : l.Tidy) (who : Nat) (key : FragmentKey) :
    (m.letGo who key).Agrees (l.leave key who) := by
  unfold Mutexes.letGo
  split
  · next mutex hmutex =>
    have hlines := h.unlined hl who (h.tabled hmutex)
    refine { hlines with left := ?_, swept := ?_ }
    · intro other key' hgone
      rcases List.mem_append.mp hgone with hgone | hnew
      · exact hlines.left hgone
      · cases List.mem_singleton.mp hnew
        exact fun hmem => (hl.mem_queue_leave.mp hmem).2 ⟨rfl, rfl⟩
    · intro key' mutex' hget hnone
      refine (h.swept hget hnone).imp_left (Exists.imp fun other hgone => ?_)
      exact List.mem_append_left _ hgone
  · next hnone => exact h.absent hnone

theorem forsake (h : m.Agrees l) (hl : l.Tidy) (who : Nat) (key : FragmentKey) :
    (m.forsake who key).Agrees (l.leave key who) := by
  unfold Mutexes.forsake
  split
  · next mutex hmutex =>
    have hlines := h.unlined hl who (h.tabled hmutex)
    refine { hlines with tabled := ?_, reached := ?_, swept := ?_ }
    · intro other key' mutex' hget
      rw [Table.get?_erase] at hget
      split at hget
      · cases hget
      · exact h.tabled hget
    · intro other key' hmem
      rw [Table.get?_erase, if_neg]
      · exact hlines.reached hmem
      · rintro heq
        cases heq
        exact (hl.mem_queue_leave.mp hmem).2 ⟨rfl, rfl⟩
    · intro key' mutex' hget hnone
      by_cases hkey : key' = key
      · exact .inr (hkey ▸ List.mem_cons_self)
      · refine (h.swept hget fun other => ?_).imp_right (List.mem_cons_of_mem key)
        have hnone' := hnone other
        rwa [Table.get?_erase, if_neg (by simp [hkey])] at hnone'
  · next hnone => exact h.absent hnone

theorem letGoEach (h : m.Agrees l) (hl : l.Tidy) (who : Nat) (keys : List FragmentKey) :
    (m.letGoEach who keys).Agrees (keys.foldl (fun l key => l.leave key who) l) := by
  induction keys generalizing m l with
  | nil => exact h
  | cons key keys ih => exact ih (h.letGo hl who key) (hl.leave key who)

theorem letGoAll (h : m.Agrees l) (hl : l.Tidy) (who : Nat) :
    (m.letGoAll who).Agrees (l.dismiss who) := by
  unfold Mutexes.letGoAll
  generalize hkeys : (m.handles.keys.filter fun handle => handle.1 == who).map Prod.snd = keys
  have hmem (key : FragmentKey) : m.handles.get? (who, key) ≠ none → key ∈ keys := by
    intro hhandle
    obtain ⟨mutex, hmutex⟩ := Option.ne_none_iff_exists'.mp hhandle
    have hentry : (who, key) ∈ m.handles.keys :=
      List.mem_map_of_mem (Table.mem_entries_of_get? hmutex)
    rw [← hkeys]
    exact List.mem_map.mpr ⟨(who, key), List.mem_filter.mpr ⟨hentry, by simp⟩, rfl⟩
  have hnodup : keys.Nodup := by
    rw [← hkeys]
    refine (m.handles.nodup.filter _).map_on ?_
    rintro ⟨i, k⟩ hi ⟨j, k'⟩ hj rfl
    have hi := (List.mem_filter.mp hi).2
    have hj := (List.mem_filter.mp hj).2
    simp_all
  refine (h.letGoEach hl who keys).congr fun key => ?_
  rw [Locks.queue_dismiss, Locks.queue_foldl_leave l hnodup]
  split
  · rfl
  · next hout =>
    refine List.erase_of_not_mem fun hqueued => hout (hmem key (h.reached hqueued))

/-- Who has a mutex locked is the holder of the lock. -/
theorem locked_iff_holder (h : m.Agrees l) {who : Nat} {key : FragmentKey} :
    m.locked who key = true ↔ l.holder? key = some who := by
  rw [locked_iff]
  constructor
  · rintro ⟨mutex, hmutex, hhead⟩
    rwa [h.lined (h.tabled hmutex)] at hhead
  · intro hholder
    obtain ⟨mutex, hmutex⟩ := Option.ne_none_iff_exists'.mp (h.reached (List.mem_of_head? hholder))
    exact ⟨mutex, hmutex, (h.lined (h.tabled hmutex)).symm ▸ hholder⟩

/-- If nobody has a reference for a key, its mutex is referred to by the table alone. -/
theorem references_eq_one_of_unused (h : m.Agrees l) {key : FragmentKey} {mutex : Nat}
    (htable : m.table.get? key = some mutex) (hunused : ∀ who, m.handles.get? (who, key) = none) :
    m.references mutex = 1 := by
  refine references_eq_one.mpr fun ⟨who, key'⟩ hget => ?_
  obtain rfl := h.distinct htable (h.tabled hget)
  cases (hunused who).symm.trans hget

/-- A mutex is taken out of the table when the table's reference is the last one. -/
private theorem swept_out (h : m.Agrees l) {key : FragmentKey}
    (hlast : (m.table.get? key).any (fun mutex => m.references mutex == 1) = true)
    {leaving : List (Nat × FragmentKey)} (hsome : ∀ lock ∈ leaving, lock ∈ m.leaving)
    (hothers : ∀ lock ∈ m.leaving, lock.2 ≠ key → lock ∈ leaving) :
    Agrees { m with table := m.table.erase key, leaving := leaving } l := by
  obtain ⟨mutex, htable, hone⟩ := Option.any_eq_true _ _ |>.mp hlast
  have hunused := references_eq_one.mp (beq_iff_eq.mp hone)
  have hget {key' : FragmentKey} {mutex' : Nat}
      (hkey : (m.table.erase key).get? key' = some mutex') :
      key' ≠ key ∧ m.table.get? key' = some mutex' := by
    rw [Table.get?_erase] at hkey
    split at hkey
    · cases hkey
    · next hne => exact ⟨hne, hkey⟩
  refine { h with tabled := ?_, lined := ?_, untabled := ?_, left := ?_, distinct := ?_,
                  numbered := ?_, swept := ?_ }
  · intro who key' mutex' hhandle
    have hkey := h.tabled hhandle
    rw [Table.get?_erase, if_neg, hkey]
    rintro rfl
    obtain rfl := Option.some.inj (hkey.symm.trans htable)
    exact hunused _ hhandle
  · exact fun hkey => h.lined (hget hkey).2
  · intro key' hnone
    by_cases hkey : key' = key
    · subst hkey
      -- Whoever is in line has a reference, and there is none.
      refine List.eq_nil_iff_forall_not_mem.mpr fun who hmem => ?_
      obtain ⟨mutex', hhandle⟩ := Option.ne_none_iff_exists'.mp (h.reached hmem)
      obtain rfl := Option.some.inj ((h.tabled hhandle).symm.trans htable)
      exact hunused _ hhandle
    · rw [Table.get?_erase, if_neg hkey] at hnone
      exact h.untabled hnone
  · exact fun hgone => h.left (hsome _ hgone)
  · exact fun hkey hkey' => h.distinct (hget hkey).2 (hget hkey').2
  · exact fun hkey => h.numbered (hget hkey).2
  · intro key' mutex' hkey hnone
    refine (h.swept (hget hkey).2 hnone).imp_left (Exists.imp fun who hgone => ?_)
    exact hothers _ hgone (hget hkey).1

theorem settle (h : m.Agrees l) (who : Nat) : (m.settle who).Agrees l := by
  unfold Mutexes.settle
  split
  · exact h
  · next lock hfound =>
    obtain ⟨owner, key⟩ := lock
    have hgone : (owner, key) ∈ m.leaving := List.mem_of_find?_eq_some hfound
    split
    · -- The reference is dropped. If it was the last one, its owner has still to settle the key.
      refine { h with tabled := ?_, reached := ?_, swept := ?_ }
      · intro other key' mutex hget
        rw [Table.get?_erase] at hget
        split at hget
        · cases hget
        · exact h.tabled hget
      · intro other key' hmem
        rw [Table.get?_erase, if_neg]
        · exact h.reached hmem
        · rintro heq
          cases heq
          exact h.left hgone hmem
      · intro key' mutex hget hnone
        by_cases hkey : key' = key
        · exact .inl ⟨owner, hkey ▸ hgone⟩
        · refine h.swept hget fun other => ?_
          have hnone' := hnone other
          rwa [Table.get?_erase, if_neg (by simp [hkey])] at hnone'
    · have hothers (lock : Nat × FragmentKey) (hmem : lock ∈ m.leaving) (hkey : lock.2 ≠ key) :
          lock ∈ m.leaving.erase (owner, key) := by
        refine (List.mem_erase_of_ne ?_).mpr hmem
        rintro rfl
        exact hkey rfl
      split
      · next hlast => exact h.swept_out hlast (fun _ => List.mem_of_mem_erase) hothers
      · next hshared =>
        refine { h with left := fun hmem => h.left (List.mem_of_mem_erase hmem), swept := ?_ }
        intro key' mutex hget hnone
        by_cases hkey : key' = key
        · subst hkey
          refine (hshared ?_).elim
          rw [hget, Option.any_some, beq_iff_eq]
          exact h.references_eq_one_of_unused hget hnone
        · refine (h.swept hget hnone).imp_left (Exists.imp fun other hmem => ?_)
          exact hothers _ hmem hkey

end Agrees

/-! ## Who has to do with a lock -/

/-- Someone has a reference for a key, or is giving its lock back. -/
def Engaged (m : Mutexes) (who : Nat) (key : FragmentKey) : Prop :=
  m.handles.get? (who, key) ≠ none ∨ (who, key) ∈ m.leaving

variable {m : Mutexes} {who other : Nat} {key key' : FragmentKey}

theorem not_engaged_of_nil (hhandles : m.handles.entries = []) (hleaving : m.leaving = []) :
    ¬ m.Engaged who key := by
  simp [Engaged, Table.get?, hhandles, hleaving]

theorem handles_reach : (m.reach who key).handles.get? (other, key') ≠ none →
    m.handles.get? (other, key') ≠ none ∨ other = who ∧ key' = key := by
  unfold reach
  intro h
  split at h <;>
  · rw [Table.get?_insert] at h
    split at h
    · next heq =>
      cases heq
      exact .inr ⟨rfl, rfl⟩
    · exact .inl h

/-- Getting in line changes nothing but the line. -/
private theorem queue_eq : m.queue who key = { m with lines := (m.queue who key).lines } := by
  unfold queue
  split
  · split <;> rfl
  · rfl

theorem handles_queue : (m.queue who key).handles = m.handles := by rw [queue_eq]

theorem handles_letGo : (m.letGo who key).handles = m.handles := by
  unfold letGo
  split <;> rfl

theorem leaving_reach : (m.reach who key).leaving = m.leaving := by
  unfold reach
  split <;> rfl

theorem leaving_queue : (m.queue who key).leaving = m.leaving := by rw [queue_eq]

theorem leaving_letGo : (other, key') ∈ (m.letGo who key).leaving ↔
    (other, key') ∈ m.leaving ∨
      (other = who ∧ key' = key) ∧ m.handles.get? (who, key) ≠ none := by
  unfold letGo
  split
  · next hmutex => simp [hmutex]
  · next hmutex => simp [hmutex]

theorem handles_forsake (h : (m.forsake who key).handles.get? (other, key') ≠ none) :
    m.handles.get? (other, key') ≠ none ∧ ¬ (other = who ∧ key' = key) := by
  unfold forsake at h
  split at h
  · rw [Table.get?_erase] at h
    split at h
    · exact (h rfl).elim
    · next hne =>
      refine ⟨h, ?_⟩
      rintro ⟨rfl, rfl⟩
      exact hne rfl
  · next hnone =>
    refine ⟨h, ?_⟩
    rintro ⟨rfl, rfl⟩
    exact h hnone

theorem leaving_forsake : (m.forsake who key).leaving = m.leaving := by
  unfold forsake
  split <;> rfl

theorem Engaged.of_reach (h : (m.reach who key).Engaged other key') :
    m.Engaged other key' ∨ other = who ∧ key' = key := by
  rcases h with hhandle | hgone
  · exact (handles_reach hhandle).imp_left .inl
  · exact .inl (.inr (leaving_reach ▸ hgone))

theorem Engaged.of_forsake (h : (m.forsake who key).Engaged other key') : m.Engaged other key' :=
  h.imp (fun hhandle => (handles_forsake hhandle).1) (leaving_forsake ▸ ·)

theorem Engaged.of_letGo (h : (m.letGo who key).Engaged other key') : m.Engaged other key' := by
  rcases h with h | h
  · exact .inl (handles_letGo ▸ h)
  · rcases leaving_letGo.mp h with h | ⟨⟨rfl, rfl⟩, h⟩
    · exact .inr h
    · exact .inl h

/-- What stays when one mutex is unlocked, stays when all are. -/
private theorem letGoAll_eq {β : Type} (f : Mutexes → β)
    (hf : ∀ m key, f (letGo m who key) = f m) (m : Mutexes) : f (m.letGoAll who) = f m := by
  unfold letGoAll
  generalize (m.handles.keys.filter fun handle => handle.1 == who).map Prod.snd = keys
  induction keys generalizing m with
  | nil => rfl
  | cons key keys ih => exact (ih _).trans (hf m key)

private theorem leaving_letGoEach {keys : List FragmentKey} :
    (other, key') ∈ (m.letGoEach who keys).leaving ↔ (other, key') ∈ m.leaving ∨
      (other = who ∧ key' ∈ keys) ∧ m.handles.get? (other, key') ≠ none := by
  induction keys generalizing m with
  | nil => simp [letGoEach]
  | cons key keys ih =>
    rw [letGoEach, ih, leaving_letGo, handles_letGo]
    aesop

theorem handles_letGoAll : (m.letGoAll who).handles = m.handles :=
  letGoAll_eq handles (fun _ _ => handles_letGo) m

theorem leaving_letGoAll : (other, key') ∈ (m.letGoAll who).leaving ↔
    (other, key') ∈ m.leaving ∨ other = who ∧ m.handles.get? (other, key') ≠ none := by
  rw [letGoAll, leaving_letGoEach]
  refine or_congr_right (and_congr_left fun hhandle => and_iff_left_of_imp fun hwho => ?_)
  obtain ⟨mutex, hmutex⟩ := Option.ne_none_iff_exists'.mp hhandle
  have hentry : (other, key') ∈ m.handles.keys :=
    List.mem_map_of_mem (Table.mem_entries_of_get? hmutex)
  exact List.mem_map.mpr ⟨_, List.mem_filter.mpr ⟨hentry, by simpa using hwho⟩, rfl⟩

theorem Engaged.of_letGoAll (h : (m.letGoAll who).Engaged other key') : m.Engaged other key' := by
  rcases h with h | h
  · exact .inl (handles_letGoAll ▸ h)
  · exact (leaving_letGoAll.mp h).elim .inr fun h => .inl h.2

theorem handles_settle (h : (m.settle who).handles.get? (other, key) ≠ none) :
    m.handles.get? (other, key) ≠ none := by
  unfold settle at h
  split at h
  · exact h
  · split at h
    · rw [Table.get?_erase] at h
      split at h
      · exact (h rfl).elim
      · exact h
    · exact h

theorem leaving_settle (h : (other, key) ∈ (m.settle who).leaving) :
    (other, key) ∈ m.leaving := by
  unfold settle at h
  split at h
  · exact h
  · split at h
    · exact h
    · exact List.mem_of_mem_erase h

theorem Engaged.of_settle (h : (m.settle who).Engaged other key) : m.Engaged other key :=
  h.imp handles_settle leaving_settle

theorem forsaken_reach : (m.reach who key).forsaken = m.forsaken := by
  unfold reach
  split <;> rfl

theorem forsaken_queue : (m.queue who key).forsaken = m.forsaken := by rw [queue_eq]

theorem forsaken_letGo : (m.letGo who key).forsaken = m.forsaken := by
  unfold letGo
  split <;> rfl

theorem forsaken_letGoAll : (m.letGoAll who).forsaken = m.forsaken :=
  letGoAll_eq forsaken (fun _ _ => forsaken_letGo) m

theorem forsaken_settle : (m.settle who).forsaken = m.forsaken := by
  unfold settle
  split
  · rfl
  · split <;> rfl

theorem mem_forsaken_forsake (h : key' ∈ (m.forsake who key).forsaken) :
    key' = key ∨ key' ∈ m.forsaken := by
  unfold forsake at h
  split at h
  · exact List.mem_cons.mp h
  · exact .inr h

theorem table_queue : (m.queue who key).table = m.table := by rw [queue_eq]

theorem table_letGo : (m.letGo who key).table = m.table := by
  unfold letGo
  split <;> rfl

theorem table_letGoAll : (m.letGoAll who).table = m.table :=
  letGoAll_eq table (fun _ _ => table_letGo) m

theorem table_forsake : (m.forsake who key).table = m.table := by
  unfold forsake
  split <;> rfl

theorem table_reach (h : key' ≠ key) :
    (m.reach who key).table.get? key' = m.table.get? key' := by
  unfold reach
  split
  · rfl
  · exact (Table.get?_insert ..).trans (if_neg h)

/-- Only the mutex of a lock that is being given back is taken out of the table. -/
theorem table_settle (h : ∀ other, (other, key) ∉ m.leaving) :
    (m.settle who).table.get? key = m.table.get? key := by
  unfold settle
  split
  · rfl
  · next lock hfound =>
    have hne : key ≠ lock.2 := by
      rintro rfl
      exact h lock.1 (List.mem_of_find?_eq_some hfound)
    split
    · rfl
    · simp only
      split
      · exact (Table.get?_erase ..).trans (if_neg hne)
      · rfl

/-- A lock whose reference is not dropped yet is still being given back. -/
theorem leaving_settle_of_handle (h : (other, key) ∈ m.leaving)
    (hhandle : (m.settle who).handles.get? (other, key) ≠ none) :
    (other, key) ∈ (m.settle who).leaving := by
  unfold settle at hhandle ⊢
  split
  · exact h
  · next lock hfound =>
    simp only [hfound] at hhandle
    split at hhandle
    · next hheld =>
      rw [if_pos hheld]
      exact h
    · next hdropped =>
      rw [if_neg hdropped]
      refine (List.mem_erase_of_ne ?_).mpr h
      rintro rfl
      exact hdropped (by simpa [Table.contains, Option.isSome_iff_ne_none] using hhandle)

theorem reach_ne (h : m.handles.get? (who, key) = none) : m.reach who key ≠ m := by
  intro heq
  have hreached : (m.reach who key).handles.get? (who, key) ≠ none := by
    unfold reach
    split <;> simp
  rw [heq] at hreached
  exact hreached h

/-- Giving a lock back gets on with every step. -/
theorem settle_ne (h : (who, key) ∈ m.leaving) : m.settle who ≠ m := by
  have hsome : (m.leaving.find? fun lock => lock.1 == who).isSome = true :=
    List.find?_isSome.mpr ⟨_, h, by simp⟩
  obtain ⟨lock, hlock⟩ := Option.isSome_iff_exists.mp hsome
  have hmem := List.mem_of_find?_eq_some hlock
  unfold settle
  simp only [hlock]
  split
  · next hheld =>
    intro heq
    have hsame : m.handles.erase lock = m.handles := congrArg Mutexes.handles heq
    have hdropped := Table.get?_erase m.handles lock lock
    rw [if_pos rfl, hsame] at hdropped
    simp [Table.contains, hdropped] at hheld
  · intro heq
    have hshorter := List.length_erase_of_mem hmem
    have hlonger := List.length_pos_of_mem hmem
    have hsame := congrArg (fun m => m.leaving.length) heq
    simp only at hsame
    omega

end Mutexes

end EdgeCompose
