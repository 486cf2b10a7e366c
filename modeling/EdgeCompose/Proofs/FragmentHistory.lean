import EdgeCompose.Proofs.Stores
import EdgeCompose.Store.Clock
import Mathlib.Data.List.Induction

/-!
The fragment store beside a plain map, through any sequence of operations. The map forgets an entry
only when something is put in its place or it is invalidated, and does not tell entries that have
expired. The store also drops an expired entry when a look-up finds it. Nobody can tell them apart
by looking up or by storing what was fetched, and the store lacks exactly the expired entries
that a look-up of their own key has found (`store_refines`).
-/

namespace EdgeCompose.FragmentHistory

inductive Operation where
  | find (key : FragmentKey)
  | put (key : FragmentKey) (entry : FragmentEntry)
  | storeFetched (key : FragmentKey) (content : Text) (expires : Option Int)
  | peek (key : FragmentKey)
  | invalidate (key : FragmentKey)
  | size
  | advance (seconds : Nat)
  deriving DecidableEq, Repr

inductive Answer where
  | content (found : Option Text)
  | stored (accepted : Bool)
  | entry (found : Option FragmentEntry)
  | removed (found : Bool)
  | size (n : Nat)
  | silence
  deriving DecidableEq, Repr

structure State where
  store : FragmentStore := .empty
  clock : Clock

namespace State

def now (s : State) : Int := s.clock.calendar

def step (s : State) : Operation → Answer × State
  | .find k =>
    let (found, store) := s.store.find s.now k
    (.content found, { s with store })
  | .put k e => (.silence, { s with store := s.store.put k e })
  | .storeFetched k content expires =>
    let (accepted, store) := s.store.storeFetched s.now k content expires
    (.stored accepted, { s with store })
  | .peek k => (.entry (s.store.get? k), s)
  | .invalidate k =>
    let (found, store) := s.store.invalidate k
    (.removed found, { s with store })
  | .size => (.size (Table.size s.store), s)
  | .advance seconds => (.silence, { s with clock := s.clock.advance seconds })

def run (clock : Clock) (ops : List Operation) : State :=
  ops.foldl (fun s op => (s.step op).2) { clock }

end State

/-! ## The plain map -/

/-- An entry without an expiry lasts for ever, any other until just before it expires. -/
def lasts (e : FragmentEntry) (now : Int) : Bool :=
  match e.expires with
  | none => true
  | some expires => now < expires

structure PlainMap where
  entries : FragmentKey → Option FragmentEntry := fun _ => none
  clock : Clock

namespace PlainMap

def now (m : PlainMap) : Int := m.clock.calendar

def read (m : PlainMap) (k : FragmentKey) : Option Text :=
  match m.entries k with
  | some e => if lasts e m.now then some e.content else none
  | none => none

/-- Whether a key has an entry that what was fetched does not displace. -/
def protects (m : PlainMap) (k : FragmentKey) : Bool :=
  match m.entries k with
  | some e => !e.fetchable && lasts e m.now
  | none => false

def set (m : PlainMap) (k : FragmentKey) (e : Option FragmentEntry) : PlainMap :=
  { m with entries := fun key => if key = k then e else m.entries key }

/-- The map answers look-ups and stores; what else there is to ask is about the store itself. -/
def step (m : PlainMap) : Operation → Option Answer × PlainMap
  | .find k => (some (.content (m.read k)), m)
  | .put k e => (none, m.set k (some e))
  | .storeFetched k content expires =>
    if m.protects k then (some (.stored false), m)
    else (some (.stored true), m.set k (some { content, expires, fetchable := true }))
  | .invalidate k => (none, m.set k none)
  | .peek _ | .size => (none, m)
  | .advance seconds => (none, { m with clock := m.clock.advance seconds })

def run (clock : Clock) (ops : List Operation) : PlainMap :=
  ops.foldl (fun m op => (m.step op).2) { clock }

end PlainMap

/-- An operation that gives a key another entry, or none. What was fetched is refused while the
entry is protected; so it never is after a look-up that found the entry expired. -/
def Writes (k : FragmentKey) : Operation → Prop
  | .put key _ | .storeFetched key .. | .invalidate key => key = k
  | _ => False

/-- Since the key was last written, it has been looked up when its entry had expired already. -/
def Evicted (clock : Clock) (ops : List Operation) (k : FragmentKey) : Prop :=
  ∃ before after e, ops = before ++ .find k :: after ∧
    (PlainMap.run clock before).entries k = some e ∧
    lasts e (PlainMap.run clock before).now = false ∧ ∀ op ∈ after, ¬ Writes k op

/-! ## One operation more -/

theorem State.run_snoc (clock : Clock) (ops : List Operation) (op : Operation) :
    run clock (ops ++ [op]) = ((run clock ops).step op).2 := by
  simp [run]

theorem PlainMap.run_snoc (clock : Clock) (ops : List Operation) (op : Operation) :
    run clock (ops ++ [op]) = ((run clock ops).step op).2 := by
  simp [run]

theorem evicted_snoc {clock : Clock} {ops : List Operation} {op : Operation} {k : FragmentKey} :
    Evicted clock (ops ++ [op]) k ↔ (Evicted clock ops k ∧ ¬ Writes k op) ∨
      op = .find k ∧ ∃ e, (PlainMap.run clock ops).entries k = some e ∧
        lasts e (PlainMap.run clock ops).now = false := by
  constructor
  · rintro ⟨before, after, e, hops, he, hexpired, hafter⟩
    rcases List.eq_nil_or_concat after with rfl | ⟨after, last, rfl⟩
    · obtain ⟨rfl, hop⟩ := List.append_inj' hops rfl
      exact .inr ⟨List.singleton_inj.mp hop, e, he, hexpired⟩
    · rw [List.concat_eq_append, ← List.cons_append, ← List.append_assoc] at hops
      obtain ⟨rfl, hop⟩ := List.append_inj' hops rfl
      obtain rfl := List.singleton_inj.mp hop
      refine .inl ⟨⟨before, after, e, rfl, he, hexpired, ?_⟩, ?_⟩
      · intro op hop
        exact hafter op (by simp [hop])
      · exact hafter op (by simp)
  · rintro (⟨⟨before, after, e, rfl, he, hexpired, hafter⟩, hop⟩ | ⟨rfl, e, he, hexpired⟩)
    · refine ⟨before, after ++ [op], e, by simp, he, hexpired, ?_⟩
      intro other hother
      rcases List.mem_append.mp hother with hin | hlast
      · exact hafter other hin
      · rwa [List.mem_singleton.mp hlast]
    · exact ⟨ops, [], e, rfl, he, hexpired, by simp⟩

theorem isExpired_eq (e : FragmentEntry) (now : Int) : e.isExpired now = !lasts e now := by
  unfold FragmentEntry.isExpired lasts
  cases e.expires with
  | none => rfl
  | some expires =>
    rw [← decide_not]
    exact decide_eq_decide.mpr Int.not_lt.symm

/-- A look-up takes away the entry of its key if that has expired, and nothing else. -/
theorem get?_find_iff {f : FragmentStore} {now : Int} {k key : FragmentKey} {e : FragmentEntry} :
    (f.find now k).2.get? key = some e ↔
      f.get? key = some e ∧ (key = k → lasts e now = true) := by
  by_cases hk : key = k
  · subst hk
    rcases f.find_cases now key with ⟨hnone, heq⟩ | ⟨e', he, hexpired, heq⟩ | ⟨e', he, hlasts, heq⟩
    · simp [heq, hnone]
    · rw [isExpired_eq] at hexpired
      simp only [heq, Table.get?_erase, he, if_true, Option.some.injEq, forall_const]
      constructor
      · intro h
        cases h
      · rintro ⟨rfl, hlasts⟩
        simp [hlasts] at hexpired
    · rw [isExpired_eq] at hlasts
      simp only [heq, he, Option.some.injEq, forall_const]
      constructor
      · rintro rfl
        exact ⟨rfl, by simpa using hlasts⟩
      · rintro ⟨rfl, -⟩
        rfl
  · rw [FragmentStore.get?_find_ne hk]
    simp [hk]

theorem expired_later {e : FragmentEntry} {now later : Int} (h : now ≤ later)
    (hexpired : lasts e now = false) : lasts e later = false := by
  unfold lasts at hexpired ⊢
  cases he : e.expires with
  | none => simp [he] at hexpired
  | some expires =>
    simp only [he, decide_eq_false_iff_not] at hexpired ⊢
    omega

/-! ## The store and the map -/

/-- The store and the map after the same operations: what is missing from the store has been looked
up when it had expired. -/
structure Alike (clock : Clock) (ops : List Operation) : Prop where
  sameTime : (State.run clock ops).clock = (PlainMap.run clock ops).clock
  entries : ∀ k e, (State.run clock ops).store.get? k = some e ↔
    (PlainMap.run clock ops).entries k = some e ∧ ¬ Evicted clock ops k
  expired : ∀ k, Evicted clock ops k → ∃ e, (PlainMap.run clock ops).entries k = some e ∧
    lasts e (PlainMap.run clock ops).now = false

namespace Alike

variable {clock : Clock} {ops : List Operation} {op : Operation} {k : FragmentKey}

theorem now (h : Alike clock ops) : (State.run clock ops).now = (PlainMap.run clock ops).now :=
  congrArg Clock.calendar h.sameTime

/-- What only the map still has is not told any more. -/
theorem expired_of_missing (h : Alike clock ops) {e : FragmentEntry}
    (hnone : (State.run clock ops).store.get? k = none)
    (he : (PlainMap.run clock ops).entries k = some e) :
    lasts e (PlainMap.run clock ops).now = false := by
  rcases Classical.em (Evicted clock ops k) with hevicted | hkept
  · obtain ⟨e', he', hexpired⟩ := h.expired k hevicted
    obtain rfl := Option.some.inj (he.symm.trans he')
    exact hexpired
  · rw [(h.entries k e).mpr ⟨he, hkept⟩] at hnone
    cases hnone

theorem read (h : Alike clock ops) (k : FragmentKey) :
    ((State.run clock ops).store.find (State.run clock ops).now k).1 =
      (PlainMap.run clock ops).read k := by
  unfold PlainMap.read
  rcases (State.run clock ops).store.find_cases (State.run clock ops).now k with
    ⟨hnone, heq⟩ | ⟨e, he, hexpired, heq⟩ | ⟨e, he, hlasts, heq⟩
  · rw [heq]
    cases hm : (PlainMap.run clock ops).entries k with
    | none => rfl
    | some e => simp [h.expired_of_missing hnone hm]
  · rw [isExpired_eq, h.now, Bool.not_eq_true'] at hexpired
    simp [heq, ((h.entries k e).mp he).1, hexpired]
  · rw [isExpired_eq, h.now, Bool.not_eq_false'] at hlasts
    simp [heq, ((h.entries k e).mp he).1, hlasts]

theorem protects (h : Alike clock ops) (k : FragmentKey) :
    (State.run clock ops).store.isPinned (State.run clock ops).now k =
      (PlainMap.run clock ops).protects k := by
  unfold PlainMap.protects FragmentStore.isPinned
  cases hs : (State.run clock ops).store.get? k with
  | some e => simp [((h.entries k e).mp hs).1, isExpired_eq, h.now]
  | none =>
    cases hm : (PlainMap.run clock ops).entries k with
    | none => rfl
    | some e => simp [h.expired_of_missing hs hm]

theorem nil (clock : Clock) : Alike clock [] where
  sameTime := rfl
  entries k e := by
    constructor
    · intro h
      cases h
    · rintro ⟨h, -⟩
      cases h
  expired k := by
    rintro ⟨before, after, e, hops, -⟩
    simp at hops

/-- A key is written in both alike, and what was looked up before does not matter any more. -/
private theorem write (h : Alike clock ops) (found : Option FragmentEntry)
    (hwrites : ∀ key, Writes key op ↔ key = k)
    (hclock : (State.run clock (ops ++ [op])).clock = (State.run clock ops).clock)
    (hstore : ∀ key, (State.run clock (ops ++ [op])).store.get? key =
      if key = k then found else (State.run clock ops).store.get? key)
    (hmap : PlainMap.run clock (ops ++ [op]) = (PlainMap.run clock ops).set k found) :
    Alike clock (ops ++ [op]) := by
  have hevicted (key : FragmentKey) :
      Evicted clock (ops ++ [op]) key ↔ Evicted clock ops key ∧ key ≠ k := by
    have hfind : op ≠ .find key := by
      rintro rfl
      exact (hwrites k).mpr rfl
    simp [evicted_snoc, hwrites, hfind]
  have hentries (key : FragmentKey) : (PlainMap.run clock (ops ++ [op])).entries key =
      if key = k then found else (PlainMap.run clock ops).entries key := by
    rw [hmap]
    rfl
  refine ⟨?_, ?_, ?_⟩
  · rw [hclock, hmap]
    exact h.sameTime
  · intro key e
    rw [hstore, hentries, hevicted]
    by_cases hk : key = k
    · simp [hk]
    · simp [hk, h.entries key e]
  · intro key hkey
    obtain ⟨hbefore, hk⟩ := (hevicted key).mp hkey
    rw [hentries, if_neg hk, hmap]
    exact h.expired key hbefore

/-- An operation that leaves both as they are. -/
private theorem still (h : Alike clock ops)
    (hevicted : ∀ key, Evicted clock (ops ++ [op]) key ↔ Evicted clock ops key)
    (hstate : State.run clock (ops ++ [op]) = State.run clock ops)
    (hmap : PlainMap.run clock (ops ++ [op]) = PlainMap.run clock ops) :
    Alike clock (ops ++ [op]) where
  sameTime := by
    rw [hstate, hmap]
    exact h.sameTime
  entries key e := by
    rw [hstate, hmap, hevicted]
    exact h.entries key e
  expired key hkey := by
    rw [hmap]
    exact h.expired key ((hevicted key).mp hkey)

private theorem advance (h : Alike clock ops) (seconds : Nat) :
    Alike clock (ops ++ [.advance seconds]) := by
  have hstate := State.run_snoc clock ops (.advance seconds)
  have hmap := PlainMap.run_snoc clock ops (.advance seconds)
  have hevicted (key : FragmentKey) :
      Evicted clock (ops ++ [.advance seconds]) key ↔ Evicted clock ops key := by
    simp [evicted_snoc, Writes]
  refine ⟨?_, ?_, ?_⟩
  · rw [hstate, hmap]
    exact congrArg (Clock.advance · seconds) h.sameTime
  · intro key e
    rw [hstate, hmap, hevicted]
    exact h.entries key e
  · intro key hkey
    obtain ⟨e, he, hexpired⟩ := h.expired key ((hevicted key).mp hkey)
    rw [hmap]
    refine ⟨e, he, expired_later ?_ hexpired⟩
    simp only [PlainMap.step, PlainMap.now, Clock.calendar, Clock.advance]
    omega

/-- An entry that is protected has not been looked up in vain. -/
private theorem not_evicted (h : Alike clock ops)
    (hprotects : (PlainMap.run clock ops).protects k = true) : ¬ Evicted clock ops k := by
  intro hevicted
  obtain ⟨e, he, hexpired⟩ := h.expired k hevicted
  simp [PlainMap.protects, he, hexpired] at hprotects

private theorem find (h : Alike clock ops) (k : FragmentKey) :
    Alike clock (ops ++ [.find k]) := by
  have hmap : PlainMap.run clock (ops ++ [.find k]) = PlainMap.run clock ops :=
    PlainMap.run_snoc clock ops (.find k)
  have hstate := State.run_snoc clock ops (.find k)
  have hevicted (key : FragmentKey) : Evicted clock (ops ++ [.find k]) key ↔
      Evicted clock ops key ∨ k = key ∧ ∃ e, (PlainMap.run clock ops).entries key = some e ∧
        lasts e (PlainMap.run clock ops).now = false := by
    simp [evicted_snoc, Writes]
  refine ⟨?_, ?_, ?_⟩
  · rw [hmap, hstate]
    exact h.sameTime
  · intro key e
    have hfound : (State.run clock (ops ++ [.find k])).store.get? key = some e ↔
        (State.run clock ops).store.get? key = some e ∧
          (key = k → lasts e (State.run clock ops).now = true) := by
      rw [hstate]
      exact get?_find_iff
    rw [hfound, h.entries, h.now, hmap, hevicted]
    constructor
    · rintro ⟨⟨he, hkept⟩, hlasts⟩
      refine ⟨he, ?_⟩
      rintro (hevicted | ⟨rfl, e', he', hexpired⟩)
      · exact hkept hevicted
      · obtain rfl := Option.some.inj (he.symm.trans he')
        simp [hlasts rfl] at hexpired
    · rintro ⟨he, hkept⟩
      refine ⟨⟨he, fun hevicted => hkept (.inl hevicted)⟩, ?_⟩
      rintro rfl
      rw [← Bool.not_eq_false]
      intro hexpired
      exact hkept (.inr ⟨rfl, e, he, hexpired⟩)
  · intro key hkey
    rw [hmap]
    rcases (hevicted key).mp hkey with hbefore | ⟨-, hexpired⟩
    · exact h.expired key hbefore
    · exact hexpired

theorem step (h : Alike clock ops) (op : Operation) : Alike clock (ops ++ [op]) := by
  have hstate := State.run_snoc clock ops op
  have hmap := PlainMap.run_snoc clock ops op
  cases op with
  | find k => exact h.find k
  | put k e =>
    refine h.write (k := k) (some e) (fun key => eq_comm) ?_ ?_ hmap
    · rw [hstate]
      rfl
    · intro key
      rw [hstate]
      exact Table.get?_insert ..
  | storeFetched k content expires =>
    have hprotects := h.protects k
    rcases (State.run clock ops).store.storeFetched_cases (State.run clock ops).now k content
      expires with ⟨hpinned, heq⟩ | ⟨hfree, heq⟩
    · rw [hpinned] at hprotects
      refine h.still ?_ ?_ ?_
      · intro key
        have hkept := h.not_evicted hprotects.symm
        simp only [evicted_snoc, Writes, reduceCtorEq, false_and, or_false, and_iff_left_iff_imp]
        rintro hevicted rfl
        exact hkept hevicted
      · rw [hstate]
        simp only [State.step, heq]
      · rw [hmap]
        simp [PlainMap.step, ← hprotects]
    · rw [hfree] at hprotects
      refine h.write (k := k) (some { content, expires }) (fun key => eq_comm) ?_ ?_ ?_
      · rw [hstate]
        rfl
      · intro key
        rw [hstate]
        simp only [State.step, heq]
        exact Table.get?_insert ..
      · rw [hmap]
        simp [PlainMap.step, ← hprotects]
  | peek k => exact h.still (fun key => by simp [evicted_snoc, Writes]) hstate hmap
  | invalidate k =>
    refine h.write (k := k) none (fun key => eq_comm) ?_ ?_ hmap
    · rw [hstate]
      rfl
    · intro key
      rw [hstate]
      exact Table.get?_erase ..
  | size => exact h.still (fun key => by simp [evicted_snoc, Writes]) hstate hmap
  | advance seconds => exact h.advance seconds

theorem of_operations (clock : Clock) (ops : List Operation) : Alike clock ops := by
  induction ops using List.reverseRecOn with
  | nil => exact .nil clock
  | append_singleton ops op ih => exact ih.step op

end Alike

/-- An operation after which a key does not have the entry any more that it had, and that lasts. -/
theorem State.displaces {s : State} {op : Operation} {k : FragmentKey} {e : FragmentEntry}
    (he : s.store.get? k = some e) (hlasts : lasts e s.now = true)
    (hgone : (s.step op).2.store.get? k ≠ some e) :
    (∃ e', op = .put k e') ∨ op = .invalidate k ∨
      ∃ content expires, op = .storeFetched k content expires ∧ (s.step op).1 = .stored true := by
  cases op with
  | find key => exact absurd (get?_find_iff.mpr ⟨he, fun _ => hlasts⟩) hgone
  | put key e' =>
    by_cases hk : k = key
    · exact .inl ⟨e', by rw [hk]⟩
    · refine absurd ?_ hgone
      simp only [step, FragmentStore.put, Table.get?_insert, if_neg hk]
      exact he
  | storeFetched key content expires =>
    by_cases hk : k = key
    · subst hk
      rcases s.store.storeFetched_cases s.now k content expires with ⟨-, heq⟩ | ⟨-, heq⟩
      · refine absurd ?_ hgone
        simp only [step, heq]
        exact he
      · refine .inr (.inr ⟨content, expires, rfl, ?_⟩)
        simp only [step, heq]
    · refine absurd ?_ hgone
      exact (FragmentStore.get?_storeFetched_ne hk content expires).trans he
  | invalidate key =>
    by_cases hk : k = key
    · exact .inr (.inl (by rw [hk]))
    · refine absurd ?_ hgone
      simp only [step, FragmentStore.invalidate, Table.get?_erase, if_neg hk]
      exact he
  | peek key => exact absurd he hgone
  | size => exact absurd he hgone
  | advance seconds => exact absurd he hgone

/-- After any operations the next look-up or store is answered as the plain map answers it. The
store has the entries of the map without those that a look-up of their own key has found expired,
which are expired still; and an entry that lasts goes only by what is put in its place, by what was
fetched and is accepted in its place, or by invalidation. -/
theorem store_refines (clock : Clock) (ops : List Operation) :
    let s := State.run clock ops
    let m := PlainMap.run clock ops
    (∀ op answer, (m.step op).1 = some answer → (s.step op).1 = answer) ∧
      (∀ k e, s.store.get? k = some e ↔ m.entries k = some e ∧ ¬ Evicted clock ops k) ∧
      (∀ k, Evicted clock ops k → ∃ e, m.entries k = some e ∧ lasts e m.now = false) ∧
      ∀ op k e, s.store.get? k = some e → lasts e s.now = true →
        (s.step op).2.store.get? k ≠ some e →
        (∃ e', op = .put k e') ∨ op = .invalidate k ∨
          ∃ content expires, op = .storeFetched k content expires ∧
            (s.step op).1 = .stored true := by
  intro s m
  have h : Alike clock ops := .of_operations clock ops
  refine ⟨?_, h.entries, h.expired, fun op k e => State.displaces⟩
  intro op answer hanswer
  cases op with
  | find k =>
    obtain rfl := Option.some.inj hanswer
    exact congrArg Answer.content (h.read k)
  | storeFetched k content expires =>
    have hprotects : s.store.isPinned s.now k = m.protects k := h.protects k
    simp only [PlainMap.step] at hanswer
    simp only [State.step, FragmentStore.storeFetched, hprotects]
    cases hm : m.protects k with
    | true =>
      simp only [hm, if_true, Option.some.injEq] at hanswer ⊢
      exact hanswer
    | false =>
      simp only [hm, Bool.false_eq_true, if_false, Option.some.injEq] at hanswer ⊢
      exact hanswer
  | _ => cases hanswer

end EdgeCompose.FragmentHistory
