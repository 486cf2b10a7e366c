import EdgeCompose.Proofs.ResponseHistory
import Mathlib.Data.List.Nodup

/-!
What a bounded store of backend answers holds, after any sequence of stores, look-ups and
advances of the clock. The number of entries stays within the capacity; an entry that is still
fresh gives way to nothing but an answer that is stored under its own key; and an answer that may
be stored is refused exactly when its key is new and the store is full of fresh entries
(`capacity_kept`). The store itself never counts its fresh entries. It counts all of them, and
the stale ones that it takes away when it seems full make the difference.
-/

namespace EdgeCompose

/-! ## The number of entries of a table -/

namespace Table

variable {κ β : Type} [DecidableEq κ]

omit [DecidableEq κ] in
theorem size_filter_le (t : Table κ β) (p : κ → β → Bool) : (t.filter p).size ≤ t.size :=
  List.length_filter_le ..

private theorem count_keys (t : Table κ β) (k : κ) :
    t.keys.count k = if t.contains k then 1 else 0 := by
  split
  · next h =>
    obtain ⟨v, hv⟩ := Option.isSome_iff_exists.mp h
    apply List.count_eq_one_of_mem t.nodup
    exact List.mem_map_of_mem (f := Prod.fst) (mem_entries_of_get? hv)
  · next h =>
    apply List.count_eq_zero_of_not_mem
    intro hmem
    obtain ⟨⟨_, v⟩, hin, rfl⟩ := List.mem_map.mp hmem
    exact h (Option.isSome_iff_exists.mpr ⟨v, get?_of_mem_entries hin⟩)

/-- An entry of a table stands under `k` or is left when `k` is taken away. -/
theorem size_erase_add (t : Table κ β) (k : κ) :
    (t.erase k).size + (if t.contains k then 1 else 0) = t.size := by
  have hsplit := List.length_eq_countP_add_countP (fun e => !decide (e.1 = k)) (l := t.entries)
  have herase : (t.erase k).size = t.entries.countP fun e => !decide (e.1 = k) :=
    (List.countP_eq_length_filter ..).symm
  have hcount : t.keys.count k = t.entries.countP fun e => decide ¬ (!decide (e.1 = k)) = true := by
    rw [keys, List.count, List.countP_map]
    congr 1
    funext e
    simp [Bool.beq_eq_decide_eq]
  rw [← count_keys, herase, hcount]
  exact hsplit.symm

/-- A key that has a value gives it up for the new one; any other key is one entry more. -/
theorem size_insert (t : Table κ β) (k : κ) (v : β) :
    (t.insert k v).size = if t.contains k then t.size else t.size + 1 := by
  have herase := size_erase_add t k
  have hinsert : (t.insert k v).size = (t.erase k).size + 1 := by
    simp [size, insert]
  rw [hinsert]
  split
  · next h =>
    rw [if_pos h] at herase
    exact herase
  · next h =>
    rw [if_neg h] at herase
    omega

end Table

/-! ## Which answers may be stored -/

namespace ResponseHistory

open ResponseStore

/-- What is asked of a request and of the answer to it before there is any talk of a place: the
method, the request's own directives, the status, the answer's directives and lifetime, and that
the fields the answer varies by can be told. -/
structure Storable (r : FetchRequest) (p : Response) : Prop where
  method : r.method = "GET".toList ∨ r.method = "HEAD".toList
  wanted : (CacheControl.ofHeaders r.headers).noStore = false
  allowed : ({ request := r, response := p, time := 0 } : Accepted).Allowed
  told : ∀ value ∈ p.headers.getAll "vary".toList, (Headers.valueText? value).isSome = true

private theorem isSome_mapM {α β : Type} {f : α → Option β} {xs : List α} :
    (xs.mapM f).isSome = true ↔ ∀ x ∈ xs, (f x).isSome = true := by
  induction xs with
  | nil => simp
  | cons x xs ih =>
    rw [List.mapM_cons, List.forall_mem_cons, ← ih]
    cases f x with
    | none => simp
    | some y => cases xs.mapM f <;> simp

theorem isSome_varyNames?_iff (line : Text) :
    (varyNames? line).isSome = true ↔ ∀ item ∈ line.splitOn ',', Text.lower (Text.trim item) ≠ ['*'] := by
  unfold varyNames?
  simp only
  split
  · next h =>
    obtain ⟨item, hitem, hstar⟩ := List.mem_map.mp (List.contains_iff_mem.mp h)
    simp only [Option.isSome_none, Bool.false_eq_true, false_iff]
    intro hall
    exact hall item hitem hstar
  · next h =>
    simp only [Option.isSome_some, true_iff]
    intro item hitem hstar
    exact h (List.contains_iff_mem.mpr (List.mem_map.mpr ⟨item, hitem, hstar⟩))

/-- The fields an answer varies by can be told if each line is text and no line has a star. -/
theorem isSome_varyFields?_iff (headers : Headers) :
    (varyFields? headers).isSome = true ↔
      (∀ value ∈ headers.getAll "vary".toList, (Headers.valueText? value).isSome = true) ∧
        ¬ Varies headers ['*'] := by
  unfold varyFields?
  rw [Option.isSome_map, isSome_mapM]
  constructor
  · intro h
    constructor
    · intro value hvalue
      have := h value hvalue
      cases hline : Headers.valueText? value with
      | none => simp [hline] at this
      | some line => rfl
    · rintro ⟨value, hvalue, line, hline, item, hitem, hstar⟩
      have := h value hvalue
      rw [hline, Option.bind_some, isSome_varyNames?_iff] at this
      exact this item hitem hstar.symm
  · rintro ⟨htext, hstar⟩ value hvalue
    obtain ⟨line, hline⟩ := Option.isSome_iff_exists.mp (htext value hvalue)
    rw [hline, Option.bind_some, isSome_varyNames?_iff]
    intro item hitem heq
    exact hstar ⟨value, hvalue, line, hline, item, hitem, heq.symm⟩

theorem storable?_isSome_iff (r : FetchRequest) (p : Response) :
    (storable? r p).isSome = true ↔ Storable r p := by
  constructor
  · intro h
    obtain ⟨⟨lifetime, names⟩, hsome⟩ := Option.isSome_iff_exists.mp h
    obtain ⟨hallowed, -, hnames⟩ :=
      Accepted.storable?_eq_some (a := { request := r, response := p, time := 0 }) hsome
    have hvary := (isSome_varyFields?_iff p.headers).mp (by rw [hnames]; rfl)
    obtain ⟨hmethod, hwanted⟩ := wanted_of_storable? hsome
    exact ⟨by simpa [isCacheableMethod] using hmethod, hwanted, hallowed, hvary.1⟩
  · rintro ⟨hmethod, hwanted, ⟨hstatus, ⟨hstore, hcache, hprivate⟩, ⟨seconds, hage, hne⟩, hstar,
      hauthorized⟩, htold⟩
    simp only [Accepted.control] at hstore hcache hprivate hage hauthorized
    have hvary := (isSome_varyFields?_iff p.headers).mpr ⟨htold, hstar⟩
    have hlifetime : (CacheControl.ofHeaders p.headers).lifetime?.filter (· != 0) = some seconds := by
      rw [Option.filter_eq_some_iff]
      exact ⟨hage, by simpa using hne⟩
    have hshared : (r.headers.contains "authorization".toList &&
        !(CacheControl.ofHeaders p.headers).allowsAuthorized) = false := by
      cases hcontains : r.headers.contains "authorization".toList with
      | false => rfl
      | true =>
        have hallows : (CacheControl.ofHeaders p.headers).allowsAuthorized = true := by
          simpa only [CacheControl.allowsAuthorized, Bool.or_eq_true, or_assoc] using
            hauthorized hcontains
        rw [hallows]
        rfl
    have hmethod : isCacheableMethod r.method = true := by
      simpa [isCacheableMethod] using hmethod
    have hstatus : cacheableStatuses.contains p.status = true := List.contains_iff_mem.mpr hstatus
    unfold storable?
    simp only [hmethod, hstatus, hwanted, hstore, hcache, hprivate, hshared, hlifetime, Bool.not_true,
      Bool.or_self, Bool.false_eq_true, if_false, Option.isSome_map]
    exact hvary

/-! ## One operation -/

def freshSize (s : ResponseStore) (now : Int) : Nat :=
  (s.entries.filter fun _ e => e.isFresh now).size

theorem size_makeRoom_le (s : ResponseStore) (now : Int) (k : RequestKey) :
    (s.makeRoom now k).size ≤ s.size := by
  unfold makeRoom
  split
  · exact Table.size_filter_le ..
  · exact Nat.le_refl _

@[simp] theorem capacity_makeRoom (s : ResponseStore) (now : Int) (k : RequestKey) :
    (s.makeRoom now k).capacity = s.capacity := by
  unfold makeRoom
  split <;> rfl

/-- There is no place for a key, also after room was made, exactly if the key is new and the
fresh entries alone fill the store. -/
theorem isFullFor_makeRoom_iff {s : ResponseStore} (hsize : s.size ≤ s.capacity) (now : Int)
    (k : RequestKey) : (s.makeRoom now k).isFullFor k = true ↔
      s.entries.get? k = none ∧ freshSize s now = s.capacity := by
  have hle : freshSize s now ≤ s.size := Table.size_filter_le ..
  have hcontains : s.entries.contains k = false ↔ s.entries.get? k = none := by
    simp [Table.contains]
  cases hfull : s.isFullFor k with
  | false =>
    rw [makeRoom, hfull, if_neg (by simp), hfull]
    simp only [Bool.false_eq_true, false_iff]
    rintro ⟨hnone, hall⟩
    have : s.isFullFor k = true := by
      simp only [isFullFor, hcontains.mpr hnone, Bool.not_false, Bool.and_true, decide_eq_true_eq]
      omega
    rw [hfull] at this
    cases this
  | true =>
    rw [makeRoom, hfull, if_pos rfl]
    simp only [isFullFor, Bool.and_eq_true, decide_eq_true_eq, Bool.not_eq_true', hcontains] at hfull ⊢
    obtain ⟨-, hnone⟩ := hfull
    have hgone : (s.entries.filter fun _ e => e.isFresh now).contains k = false := by
      simp [Table.contains, Table.get?_filter, hnone]
    simp only [hgone, hnone, true_and, and_true]
    change freshSize s now ≥ s.capacity ↔ _
    omega

/-- An answer that may be stored is refused for want of a place and for nothing else. -/
theorem refused_iff {s : ResponseStore} (hsize : s.size ≤ s.capacity) (now : Int)
    {r : FetchRequest} {p : Response} (h : Storable r p) :
    (s.store now r p).1 = .ok false ↔
      s.entries.get? r.key = none ∧ freshSize s now = s.capacity := by
  obtain ⟨⟨lifetime, names⟩, hsome⟩ := Option.isSome_iff_exists.mp ((storable?_isSome_iff r p).mpr h)
  rw [← isFullFor_makeRoom_iff hsize now r.key]
  unfold ResponseStore.store
  simp only [hsome]
  split
  · next hfull => simp [hfull]
  · next hfull =>
    cases Clock.after? now lifetime <;> simp [hfull]

/-- A store that answers yes has put the answer under its key, one that does not has at most made
room. -/
theorem size_store_le {s : ResponseStore} (hsize : s.size ≤ s.capacity) (now : Int)
    (r : FetchRequest) (p : Response) : (s.store now r p).2.size ≤ s.capacity := by
  have hroom : (s.makeRoom now r.key).size ≤ s.capacity := by
    have := size_makeRoom_le s now r.key
    omega
  unfold ResponseStore.store
  cases storable? r p with
  | none => exact hsize
  | some found =>
    simp only
    split
    · exact hroom
    next hfull =>
    cases Clock.after? now found.1 with
    | error overflow => exact hroom
    | ok expires =>
      simp only [size, Table.size_insert]
      split
      · exact hroom
      next hnew =>
      simp only [isFullFor, capacity_makeRoom, size, Bool.and_eq_true, decide_eq_true_eq,
        Bool.not_eq_true', hnew, and_true] at hfull
      omega

theorem capacity_store (s : ResponseStore) (now : Int) (r : FetchRequest) (p : Response) :
    (s.store now r p).2.capacity = s.capacity := by
  rcases store_cases s now r p with ⟨e, -, heq⟩ | ⟨kept, -, heq | heq⟩ <;> rw [heq]
  · exact capacity_makeRoom s now r.key
  · exact capacity_makeRoom s now r.key

theorem size_lookup_le (s : ResponseStore) (now : Int) (r : FetchRequest) :
    (s.lookup now r).2.size ≤ s.size := by
  rcases lookup_cases s now r with heq | ⟨e, -, -, heq⟩
  · exact Nat.le_of_eq (congrArg size heq)
  · rw [heq]
    exact Table.size_filter_le ..

theorem capacity_lookup (s : ResponseStore) (now : Int) (r : FetchRequest) :
    (s.lookup now r).2.capacity = s.capacity := by
  rcases lookup_cases s now r with heq | ⟨e, -, -, heq⟩ <;> rw [heq]

/-! ## After any history -/

namespace State

theorem store_step_store (s : State) (r : FetchRequest) (p : Response) :
    (s.step (.store r p)).store = (s.store.store s.now r p).2 := by
  simp only [step]
  split <;> rfl

theorem now_step_store (s : State) (r : FetchRequest) (p : Response) :
    (s.step (.store r p)).now = s.now := by
  simp only [step]
  split <;> rfl

structure Bounded (s : State) (bound : Nat) : Prop where
  capacity : s.store.capacity = bound
  size : s.store.size ≤ bound

theorem fresh_bounded (capacity : Nat) (clock : Clock) : (fresh capacity clock).Bounded capacity where
  capacity := rfl
  size := Nat.zero_le _

theorem step_bounded {s : State} {bound : Nat} (h : s.Bounded bound) (event : Event) :
    (s.step event).Bounded bound := by
  obtain ⟨rfl, hsize⟩ := h
  cases event with
  | store r p =>
    constructor
    · rw [store_step_store, capacity_store]
    · rw [store_step_store]
      exact size_store_le hsize s.now r p
  | lookup r =>
    constructor
    · exact capacity_lookup s.store s.now r
    · exact Nat.le_trans (size_lookup_le s.store s.now r) hsize
  | advance seconds => exact ⟨rfl, hsize⟩

theorem run_bounded {s : State} {bound : Nat} (h : s.Bounded bound) (events : List Event) :
    (s.run events).Bounded bound := by
  induction events generalizing s with
  | nil => exact h
  | cons event rest ih => exact ih (step_bounded h event)

def Holds (s : State) (k : RequestKey) (e : StoredResponse) : Prop :=
  s.store.entries.get? k = some e ∧ e.isFresh s.now = true

/-- A store that gave an answer a place under `k`, where it is now. -/
def Replaces (s : State) (k : RequestKey) (event : Event) : Prop :=
  ∃ r p e, event = .store r p ∧ r.key = k ∧ (s.store.store s.now r p).1 = .ok true ∧
    ({ request := r, response := p, time := s.now } : Accepted).stored? = some e ∧
    (s.step event).store.entries.get? k = some e

theorem holds_step {s : State} {k : RequestKey} {e : StoredResponse} (h : s.Holds k e)
    (event : Event) : (s.step event).store.entries.get? k = some e ∨ s.Replaces k event := by
  obtain ⟨hget, hfresh⟩ := h
  cases event with
  | store r p =>
    have hroom := (get?_makeRoom s.store s.now r.key k e).2 hget hfresh
    have hstep := store_step_store s r p
    rcases store_cases s.store s.now r p with ⟨new, hstored, heq⟩ | ⟨kept, -, heq | heq⟩ <;>
      rw [heq] at hstep
    · by_cases hk : k = r.key
      · refine .inr ⟨r, p, new, rfl, hk.symm, by rw [heq], hstored, ?_⟩
        rw [hstep, hk]
        exact Table.get?_insert_self ..
      · left
        rw [hstep, Table.get?_insert, if_neg hk]
        exact hroom
    · rw [hstep]
      exact .inl hget
    · rw [hstep]
      exact .inl hroom
  | lookup r =>
    left
    simp only [step]
    rcases lookup_cases s.store s.now r with heq | ⟨stale, hstale, hover, heq⟩ <;> rw [heq]
    · exact hget
    · simp only [Table.get?_erase]
      split
      · next hk =>
        rw [hk, hstale] at hget
        cases hget
        rw [hover] at hfresh
        cases hfresh
      · exact hget
  | advance seconds => exact .inl hget

theorem holds_step_store_iff {s : State} {r : FetchRequest} {p : Response}
    (h : (s.store.store s.now r p).1 ≠ .ok true) (k : RequestKey) (e : StoredResponse) :
    (s.step (.store r p)).Holds k e ↔ s.Holds k e := by
  have hroom := get?_makeRoom s.store s.now r.key k e
  have hstep := store_step_store s r p
  unfold Holds
  rw [now_step_store]
  rcases store_cases s.store s.now r p with ⟨new, -, heq⟩ | ⟨kept, -, heq | heq⟩ <;>
    rw [heq] at hstep h
  · exact absurd rfl h
  · rw [hstep]
  · rw [hstep]
    exact ⟨fun hh => ⟨hroom.1 hh.1, hh.2⟩, fun hh => ⟨hroom.2 hh.1 hh.2, hh.2⟩⟩

end State

/-- After any history of a new store: it holds no more than its capacity; whatever happens next,
an entry that is still fresh stays, or an answer was stored under its key and stands in its
place; a store that gives no answer a place, be it refused or without an expiry that the clock can
represent, leaves the fresh entries as they were; and an answer that may be stored is refused
exactly when its key is new and as many entries as the capacity allows are fresh. -/
theorem capacity_kept (capacity : Nat) (clock : Clock) (events : List Event) :
    let s := (State.fresh capacity clock).run events
    s.store.size ≤ capacity ∧
      (∀ event k e, s.Holds k e →
        (s.step event).store.entries.get? k = some e ∨ s.Replaces k event) ∧
      (∀ r p, (s.store.store s.now r p).1 ≠ .ok true →
        ∀ k e, (s.step (.store r p)).Holds k e ↔ s.Holds k e) ∧
      ∀ r p, Storable r p → ((s.store.store s.now r p).1 = .ok false ↔
        s.store.entries.get? r.key = none ∧ freshSize s.store s.now = capacity) := by
  intro s
  obtain ⟨hcapacity, hsize⟩ : s.Bounded capacity :=
    State.run_bounded (State.fresh_bounded capacity clock) events
  refine ⟨hsize, ?_, ?_, ?_⟩
  · intro event k e h
    exact State.holds_step h event
  · intro r p h k e
    exact State.holds_step_store_iff h k e
  · intro r p h
    rw [← hcapacity] at hsize ⊢
    exact refused_iff hsize s.now h

/-! ## A store that has place for one answer -/

def requestTo (path : String) : FetchRequest where
  url :=
    { scheme := "http".toList
      authority := some { host := some (.domain "host".toList) }
      path := path.toList }

def keptFor (maxAge : String) : Response where
  status := 200
  headers := [("cache-control".toList, Utf8.encode ("max-age=" ++ maxAge).toList)]

/-- The answer to another request is refused, and the one that is held stays. -/
theorem capacity_kept_full :
    let s := (State.fresh 1 {}).run [.store (requestTo "/a") (keptFor "60")]
    let held : StoredResponse := { response := keptFor "60", expires := 1000060 }
    s.Holds (requestTo "/a").key held ∧ Storable (requestTo "/b") (keptFor "60") ∧
      s.store.size ≤ 1 ∧ (s.store.store s.now (requestTo "/b") (keptFor "60")).1 = .ok false ∧
      (s.step (.store (requestTo "/b") (keptFor "60"))).Holds (requestTo "/a").key held := by
  intro s held
  have hholds : s.Holds (requestTo "/a").key held := ⟨by decide +kernel, by decide +kernel⟩
  have hstorable : Storable (requestTo "/b") (keptFor "60") :=
    (storable?_isSome_iff _ _).mp (by decide +kernel)
  have hnew : s.store.entries.get? (requestTo "/b").key = none := by decide +kernel
  have hfull : freshSize s.store s.now = 1 := by decide +kernel
  obtain ⟨hsize, -, hrefused, hplace⟩ :=
    capacity_kept 1 {} [.store (requestTo "/a") (keptFor "60")]
  have hno := (hplace (requestTo "/b") (keptFor "60") hstorable).mpr ⟨hnew, hfull⟩
  refine ⟨hholds, hstorable, hsize, hno, ?_⟩
  refine (hrefused (requestTo "/b") (keptFor "60") ?_ _ _).mpr hholds
  rw [hno]
  exact nofun

end ResponseHistory

end EdgeCompose
