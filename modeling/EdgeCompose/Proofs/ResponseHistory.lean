import EdgeCompose.Store.Responses

/-!
What a store of backend answers tells after any sequence of stores, look-ups and advances of the
clock. A ghost list remembers the answers that the store accepted, the newest first. The
invariant ties the table to that list: an entry is the newest accepted answer of its key, and
the newest accepted answer of a key is in the table for as long as it is fresh. What a look-up
says is then a matter of the list and the clock alone (`lookup_exact`).
-/

namespace EdgeCompose.ResponseHistory

open ResponseStore

inductive Event where
  | store (r : FetchRequest) (p : Response)
  | lookup (r : FetchRequest)
  | advance (seconds : Nat)

/-- An answer that was stored: the request it was stored for and the time of that. -/
structure Accepted where
  request : FetchRequest
  response : Response
  time : Int

structure State where
  store : ResponseStore
  clock : Clock := {}
  accepted : List Accepted := []

namespace State

def now (s : State) : Int := s.clock.steady

def latest? (s : State) (k : RequestKey) : Option Accepted :=
  s.accepted.find? (·.request.key == k)

/-- What a store that has not been used yet starts with. -/
def fresh (capacity : Nat) (clock : Clock) : State := { store := { capacity }, clock }

def step (s : State) : Event → State
  | .store r p =>
    let (kept, store) := s.store.store s.now r p
    match kept with
    | .ok true => { s with store, accepted := { request := r, response := p, time := s.now } :: s.accepted }
    | _ => { s with store }
  | .lookup r => { s with store := (s.store.lookup s.now r).2 }
  | .advance seconds => { s with clock := s.clock.advance seconds }

def run (s : State) (events : List Event) : State := events.foldl step s

end State

/-! ## What a look-up depends on -/

def Bypasses (r : FetchRequest) : Prop :=
  (r.method ≠ "GET".toList ∧ r.method ≠ "HEAD".toList) ∨
    (CacheControl.ofHeaders r.headers).noCache = true ∨
    (CacheControl.ofHeaders r.headers).noStore = true ∨
    ∃ value, r.headers.text? "pragma".toList = some value ∧
      Text.lower value = "no-cache".toList

/-- The names in the lines of Vary, in lower case. -/
def Varies (headers : Headers) (name : Text) : Prop :=
  ∃ value ∈ headers.getAll "vary".toList, ∃ line, Headers.valueText? value = some line ∧
    ∃ item ∈ line.splitOn ',', name = Text.lower (Text.trim item)

namespace Accepted

def control (a : Accepted) : CacheControl := .ofHeaders a.response.headers

/-- Whether an accepted answer may be served still. The shared lifetime goes before the other. -/
def Fresh (a : Accepted) (now : Int) : Prop :=
  ∃ lifetime : Nat, (a.control.sharedMaxAge <|> a.control.maxAge) = some lifetime ∧
    now < a.time + lifetime

/-- Whether a request has the same first values as the one the answer was stored for. -/
def Agrees (a : Accepted) (r : FetchRequest) : Prop :=
  ∀ name, Varies a.response.headers name → name ≠ [] →
    r.headers.text? name = a.request.headers.text? name

/-- What every answer in a store has been checked for. -/
structure Allowed (a : Accepted) : Prop where
  status : a.response.status ∈ [200, 203, 300, 301, 404, 410]
  control : a.control.noStore = false ∧ a.control.noCache = false ∧ a.control.isPrivate = false
  lifetime : ∃ seconds : Nat, (a.control.sharedMaxAge <|> a.control.maxAge) = some seconds ∧ seconds ≠ 0
  vary : ¬ Varies a.response.headers ['*']
  authorized : a.request.headers.contains "authorization".toList = true →
    a.control.isPublic = true ∨ a.control.mustRevalidate = true ∨ a.control.sharedMaxAge.isSome = true

end Accepted

/-! ## Reading Vary -/

private theorem varyNames?_eq_some {line : Text} {names : List Text}
    (h : varyNames? line = some names) :
    ['*'] ∉ (line.splitOn ',').map (fun item => Text.lower (Text.trim item)) ∧
      ∀ name, name ∈ names ↔ (∃ item ∈ line.splitOn ',', name = Text.lower (Text.trim item)) ∧ name ≠ [] := by
  unfold varyNames? at h
  simp only at h
  split at h
  · cases h
  · next hstar =>
    cases h
    refine ⟨by simpa using hstar, ?_⟩
    intro name
    simp only [List.mem_filter, List.mem_map, Bool.not_eq_true', List.isEmpty_eq_false_iff]
    constructor
    · rintro ⟨⟨item, hitem, rfl⟩, hne⟩
      exact ⟨⟨item, hitem, rfl⟩, hne⟩
    · rintro ⟨⟨item, hitem, rfl⟩, hne⟩
      exact ⟨⟨item, hitem, rfl⟩, hne⟩

/-- The lines of Vary that have been read, one list of names to a line. -/
private theorem mem_varyLines {values : List Bytes} {lists : List (List Text)}
    (h : (values.mapM fun value => (Headers.valueText? value).bind varyNames?) = some lists) :
    ∀ value ∈ values, ∃ line names, Headers.valueText? value = some line ∧
      varyNames? line = some names ∧ names ∈ lists := by
  induction values generalizing lists with
  | nil =>
    intro value hmem
    cases hmem
  | cons first rest ih =>
    rw [List.mapM_cons] at h
    simp only [Option.bind_eq_bind, Option.bind_eq_some_iff, Option.pure_def, Option.some.injEq] at h
    obtain ⟨names, ⟨line, hline, hnames⟩, lists', hrest, rfl⟩ := h
    intro value hmem
    rcases List.mem_cons.mp hmem with rfl | hmem
    · exact ⟨line, names, hline, hnames, List.mem_cons_self ..⟩
    · obtain ⟨line', names', hline', hnames', hin⟩ := ih hrest value hmem
      exact ⟨line', names', hline', hnames', List.mem_cons_of_mem _ hin⟩

private theorem of_mem_varyLines {values : List Bytes} {lists : List (List Text)}
    (h : (values.mapM fun value => (Headers.valueText? value).bind varyNames?) = some lists) :
    ∀ names ∈ lists, ∃ value ∈ values, ∃ line, Headers.valueText? value = some line ∧
      varyNames? line = some names := by
  induction values generalizing lists with
  | nil =>
    intro names hmem
    cases h
    cases hmem
  | cons first rest ih =>
    rw [List.mapM_cons] at h
    simp only [Option.bind_eq_bind, Option.bind_eq_some_iff, Option.pure_def, Option.some.injEq] at h
    obtain ⟨names, ⟨line, hline, hnames⟩, lists', hrest, rfl⟩ := h
    intro names' hmem
    rcases List.mem_cons.mp hmem with rfl | hmem
    · exact ⟨first, List.mem_cons_self .., line, hline, hnames⟩
    · obtain ⟨value, hvalue, line', hline', hnames'⟩ := ih hrest names' hmem
      exact ⟨value, List.mem_cons_of_mem _ hvalue, line', hline', hnames'⟩

/-- The fields that are read from Vary are the names in it, and no star is among them. -/
theorem varyFields?_eq_some {headers : Headers} {names : List Text}
    (h : varyFields? headers = some names) :
    (∀ name, name ∈ names ↔ Varies headers name ∧ name ≠ []) ∧ ¬ Varies headers ['*'] := by
  unfold varyFields? at h
  rw [Option.map_eq_some_iff] at h
  obtain ⟨lists, hlists, rfl⟩ := h
  constructor
  · intro name
    rw [List.mem_flatten]
    constructor
    · rintro ⟨line_names, hin, hname⟩
      obtain ⟨value, hvalue, line, hline, hread⟩ := of_mem_varyLines hlists _ hin
      obtain ⟨hitem, hne⟩ := ((varyNames?_eq_some hread).2 name).mp hname
      exact ⟨⟨value, hvalue, line, hline, hitem⟩, hne⟩
    · rintro ⟨⟨value, hvalue, line, hline, hitem⟩, hne⟩
      obtain ⟨line', line_names, hline', hread, hin⟩ := mem_varyLines hlists value hvalue
      rw [hline] at hline'
      cases hline'
      exact ⟨line_names, hin, ((varyNames?_eq_some hread).2 name).mpr ⟨hitem, hne⟩⟩
  · rintro ⟨value, hvalue, line, hline, item, hitem, hstar⟩
    obtain ⟨line', line_names, hline', hread, -⟩ := mem_varyLines hlists value hvalue
    rw [hline] at hline'
    cases hline'
    exact (varyNames?_eq_some hread).1 (List.mem_map.mpr ⟨item, hitem, hstar.symm⟩)

/-! ## What is stored for an accepted answer -/

/-- What is asked of the request alone before an answer to it is stored. -/
theorem wanted_of_storable? {r : FetchRequest} {p : Response} {found : Nat × List Text}
    (h : storable? r p = some found) :
    isCacheableMethod r.method = true ∧ (CacheControl.ofHeaders r.headers).noStore = false := by
  unfold storable? at h
  simp only at h
  split at h
  · cases h
  next hmethod =>
  split at h
  · cases h
  next hwanted =>
  simp only [Bool.or_eq_true, Bool.not_eq_true', not_or, Bool.not_eq_false] at hmethod
  exact ⟨hmethod.1, Bool.eq_false_iff.mpr hwanted⟩

namespace Accepted

def stored? (a : Accepted) : Option StoredResponse :=
  (storable? a.request a.response).map fun (lifetime, names) =>
    { response := a.response
      vary := names.map fun name => (name, a.request.headers.text? name)
      expires := a.time + lifetime }

/-- Everything that is checked before an answer is stored. -/
theorem storable?_eq_some {a : Accepted} {lifetime : Nat} {names : List Text}
    (h : storable? a.request a.response = some (lifetime, names)) :
    a.Allowed ∧ (a.control.sharedMaxAge <|> a.control.maxAge) = some lifetime ∧
      varyFields? a.response.headers = some names := by
  unfold storable? at h
  simp only at h
  split at h
  · cases h
  next hmethod =>
  split at h
  · cases h
  split at h
  · cases h
  next hcontrol =>
  split at h
  · cases h
  next hauthorized =>
  split at h
  · cases h
  next seconds hlifetime =>
  rw [Option.map_eq_some_iff] at h
  obtain ⟨names', hnames, heq⟩ := h
  cases heq
  rw [Option.filter_eq_some_iff] at hlifetime
  obtain ⟨hage, hne⟩ := hlifetime
  simp only [Bool.or_eq_true, not_or, Bool.not_eq_true] at hcontrol
  refine ⟨⟨?_, ⟨hcontrol.1.1, hcontrol.1.2, hcontrol.2⟩, ⟨lifetime, hage, by simpa using hne⟩,
    (varyFields?_eq_some hnames).2, ?_⟩, hage, hnames⟩
  · simp only [Bool.or_eq_true, Bool.not_eq_true', not_or, Bool.not_eq_false] at hmethod
    exact List.contains_iff_mem.mp hmethod.2
  · intro hcontains
    simp only [hcontains, Bool.true_and, Bool.not_eq_true', Bool.not_eq_false] at hauthorized
    unfold CacheControl.allowsAuthorized at hauthorized
    simp only [Bool.or_eq_true, or_assoc] at hauthorized
    exact hauthorized

theorem allowed_of_stored? {a : Accepted} {e : StoredResponse} (h : a.stored? = some e) :
    a.Allowed := by
  unfold stored? at h
  rw [Option.map_eq_some_iff] at h
  obtain ⟨⟨lifetime, names⟩, hs, -⟩ := h
  exact (storable?_eq_some hs).1

theorem response_of_stored? {a : Accepted} {e : StoredResponse} (h : a.stored? = some e) :
    e.response = a.response := by
  unfold stored? at h
  rw [Option.map_eq_some_iff] at h
  obtain ⟨found, -, rfl⟩ := h
  rfl

theorem isFresh_of_stored? {a : Accepted} {e : StoredResponse} (h : a.stored? = some e) (now : Int) :
    e.isFresh now = true ↔ a.Fresh now := by
  unfold stored? at h
  rw [Option.map_eq_some_iff] at h
  obtain ⟨⟨lifetime, names⟩, hs, rfl⟩ := h
  have hage := (storable?_eq_some hs).2.1
  simp only [StoredResponse.isFresh, decide_eq_true_eq, Fresh, hage, Option.some.injEq]
  constructor
  · intro hlt
    exact ⟨lifetime, rfl, hlt⟩
  · rintro ⟨seconds, rfl, hlt⟩
    exact hlt

theorem accepts_of_stored? {a : Accepted} {e : StoredResponse} (h : a.stored? = some e)
    (r : FetchRequest) : e.accepts r.headers = true ↔ a.Agrees r := by
  unfold stored? at h
  rw [Option.map_eq_some_iff] at h
  obtain ⟨⟨lifetime, names⟩, hs, rfl⟩ := h
  obtain ⟨hnames, -⟩ := varyFields?_eq_some (storable?_eq_some hs).2.2
  simp only [StoredResponse.accepts, List.all_map, List.all_eq_true, Function.comp_apply, beq_iff_eq]
  constructor
  · intro hall name hvaries hne
    exact hall name ((hnames name).mpr ⟨hvaries, hne⟩)
  · intro hagrees name hmem
    obtain ⟨hvaries, hne⟩ := (hnames name).mp hmem
    exact hagrees name hvaries hne

end Accepted

/-! ## One operation on the table -/

/-- Making room takes away only what is no longer fresh. -/
theorem get?_makeRoom (s : ResponseStore) (now : Int) (k key : RequestKey) (e : StoredResponse) :
    ((s.makeRoom now k).entries.get? key = some e → s.entries.get? key = some e) ∧
      (s.entries.get? key = some e → e.isFresh now = true →
        (s.makeRoom now k).entries.get? key = some e) := by
  unfold makeRoom
  split
  · simp only [Table.get?_filter, Option.filter_eq_some_iff]
    exact ⟨fun h => h.1, fun h hfresh => ⟨h, hfresh⟩⟩
  · exact ⟨id, fun h _ => h⟩

/-- All that storing can come to: the answer's entry is put in, or at most room is made. -/
theorem store_cases (s : ResponseStore) (now : Int) (r : FetchRequest) (p : Response) :
    (∃ e, ({ request := r, response := p, time := now } : Accepted).stored? = some e ∧
      s.store now r p =
        (.ok true, { s.makeRoom now r.key with
          entries := (s.makeRoom now r.key).entries.insert r.key e })) ∨
    (∃ kept, kept ≠ .ok true ∧
      (s.store now r p = (kept, s) ∨ s.store now r p = (kept, s.makeRoom now r.key))) := by
  unfold ResponseStore.store
  cases hs : storable? r p with
  | none => exact .inr ⟨.ok false, by simp, .inl rfl⟩
  | some found =>
    obtain ⟨lifetime, names⟩ := found
    simp only
    split
    · exact .inr ⟨.ok false, by simp, .inr rfl⟩
    · cases ht : Clock.after? now lifetime with
      | error overflow =>
        simp only
        exact .inr ⟨.error overflow, by simp, .inr rfl⟩
      | ok expires =>
        have hexpires : expires = now + lifetime := by
          unfold Clock.after? at ht
          split at ht
          · cases ht
          · exact (Except.ok.inj ht).symm
        subst hexpires
        simp only
        exact .inl ⟨_, by simp only [Accepted.stored?, hs, Option.map_some], rfl⟩

/-- All that looking up can come to, by the entry of the request's key. -/
theorem lookup_cases (s : ResponseStore) (now : Int) (r : FetchRequest) :
    (s.lookup now r).2 = s ∨
    ∃ e, s.entries.get? r.key = some e ∧ e.isFresh now = false ∧
      (s.lookup now r).2 = { s with entries := s.entries.erase r.key } := by
  unfold ResponseStore.lookup
  split
  · exact .inl rfl
  · cases hget : s.entries.get? r.key with
    | none => exact .inl rfl
    | some e =>
      simp only
      split
      · next hfresh => exact .inr ⟨e, rfl, by simpa using hfresh, rfl⟩
      · left
        split <;> rfl

/-! ## The table and the history -/

namespace State

/-- The invariant that ties the table to the answers that were accepted. -/
structure Sound (s : State) : Prop where
  allowed : ∀ a ∈ s.accepted, a.Allowed
  newest : ∀ k e, s.store.entries.get? k = some e →
    ∃ a, s.latest? k = some a ∧ a.stored? = some e
  kept : ∀ k a, s.latest? k = some a → a.Fresh s.now →
    ∃ e, s.store.entries.get? k = some e ∧ a.stored? = some e

theorem fresh_sound (capacity : Nat) (clock : Clock) : (fresh capacity clock).Sound where
  allowed := by
    intro a hmem
    cases hmem
  newest := by
    intro k e hget
    cases hget
  kept := by
    intro k a hlatest
    cases hlatest

/-- Taking away entries that are no longer fresh does not matter. -/
private theorem sound_of_dropped {s : State} (h : s.Sound) {store : ResponseStore}
    (hsub : ∀ k e, store.entries.get? k = some e → s.store.entries.get? k = some e)
    (hkeep : ∀ k e, s.store.entries.get? k = some e → e.isFresh s.now = true →
      store.entries.get? k = some e) : ({ s with store } : State).Sound where
  allowed := h.allowed
  newest := by
    intro k e hget
    exact h.newest k e (hsub k e hget)
  kept := by
    intro k a hlatest hfresh
    obtain ⟨e, hget, hstored⟩ := h.kept k a hlatest hfresh
    exact ⟨e, hkeep k e hget ((Accepted.isFresh_of_stored? hstored _).mpr hfresh), hstored⟩

private theorem sound_of_stored {s : State} (h : s.Sound) {r : FetchRequest} {p : Response}
    {e : StoredResponse} {store : ResponseStore}
    (hstored : ({ request := r, response := p, time := s.now } : Accepted).stored? = some e)
    (hsub : ∀ k e, store.entries.get? k = some e → s.store.entries.get? k = some e)
    (hkeep : ∀ k e, s.store.entries.get? k = some e → e.isFresh s.now = true →
      store.entries.get? k = some e) :
    ({ s with
        store := { store with entries := store.entries.insert r.key e }
        accepted := { request := r, response := p, time := s.now } :: s.accepted } : State).Sound := by
  have hlatest (k : RequestKey) : ({ s with
      store := { store with entries := store.entries.insert r.key e }
      accepted := { request := r, response := p, time := s.now } :: s.accepted } : State).latest? k =
      if k = r.key then some { request := r, response := p, time := s.now } else s.latest? k := by
    by_cases hk : k = r.key
    · subst hk
      simp [latest?]
    · have hne : (r.key == k) = false := by simpa using Ne.symm hk
      simp [latest?, hne, hk]
  constructor
  · intro a hmem
    rcases List.mem_cons.mp hmem with rfl | hmem
    · exact Accepted.allowed_of_stored? hstored
    · exact h.allowed a hmem
  · intro k found hget
    rw [hlatest]
    simp only [Table.get?_insert] at hget
    by_cases hk : k = r.key
    · simp only [hk, if_true, Option.some.injEq] at hget ⊢
      subst hget
      exact ⟨_, rfl, hstored⟩
    · simp only [hk, if_false] at hget ⊢
      exact h.newest k found (hsub k found hget)
  · intro k a ha hfresh
    rw [hlatest] at ha
    simp only [Table.get?_insert]
    by_cases hk : k = r.key
    · simp only [hk, if_true, Option.some.injEq] at ha ⊢
      subst ha
      exact ⟨e, rfl, hstored⟩
    · simp only [hk, if_false] at ha ⊢
      obtain ⟨found, hget, hfound⟩ := h.kept k a ha hfresh
      exact ⟨found, hkeep k found hget ((Accepted.isFresh_of_stored? hfound _).mpr hfresh), hfound⟩

theorem step_sound {s : State} (h : s.Sound) (event : Event) : (s.step event).Sound := by
  cases event with
  | store r p =>
    have hroom := get?_makeRoom s.store s.now r.key
    rcases store_cases s.store s.now r p with ⟨e, hstored, heq⟩ | ⟨kept, hkept, heq | heq⟩
    · simp only [step, heq]
      exact sound_of_stored h hstored (fun k e => (hroom k e).1) (fun k e => (hroom k e).2)
    · simp only [step, heq]
      cases kept with
      | error overflow => exact h
      | ok stored =>
        cases stored with
        | true => exact absurd rfl hkept
        | false => exact h
    · have hdropped : ({ s with store := s.store.makeRoom s.now r.key } : State).Sound :=
        sound_of_dropped h (fun k e => (hroom k e).1) (fun k e => (hroom k e).2)
      simp only [step, heq]
      cases kept with
      | error overflow => exact hdropped
      | ok stored =>
        cases stored with
        | true => exact absurd rfl hkept
        | false => exact hdropped
  | lookup r =>
    rcases lookup_cases s.store s.now r with heq | ⟨e, hget, hstale, heq⟩
    · simp only [step, heq]
      exact h
    · simp only [step, heq]
      apply sound_of_dropped h
      · intro k found hfound
        simp only [Table.get?_erase] at hfound
        split at hfound
        · cases hfound
        · exact hfound
      · intro k found hfound hfresh
        simp only [Table.get?_erase]
        split
        · next hk =>
          subst hk
          rw [hget] at hfound
          cases hfound
          rw [hstale] at hfresh
          cases hfresh
        · exact hfound
  | advance seconds =>
    refine ⟨h.allowed, h.newest, ?_⟩
    intro k a hlatest hfresh
    refine h.kept k a hlatest ?_
    obtain ⟨lifetime, hage, hlt⟩ := hfresh
    refine ⟨lifetime, hage, ?_⟩
    simp only [step, now, Clock.steady, Clock.advance] at hlt ⊢
    omega

theorem run_sound {s : State} (h : s.Sound) (events : List Event) : (s.run events).Sound := by
  induction events generalizing s with
  | nil => exact h
  | cons event rest ih => exact ih (step_sound h event)

end State

/-! ## What a look-up tells -/

theorem bypasses_iff (r : FetchRequest) :
    (!isCacheableMethod r.method || forbidsReuse r) = true ↔ Bypasses r := by
  have hpragma : (r.headers.text? "pragma".toList).any (Text.equalFold · "no-cache".toList) = true ↔
      ∃ value, r.headers.text? "pragma".toList = some value ∧
        Text.lower value = "no-cache".toList := by
    rw [Option.any_eq_true]
    have hlower : Text.lower "no-cache".toList = "no-cache".toList := by decide
    simp only [Text.equalFold, hlower, beq_iff_eq]
  unfold forbidsReuse isCacheableMethod Bypasses
  simp only [Bool.or_eq_true, hpragma, Bool.not_eq_true', Bool.or_eq_false_iff, beq_eq_false_iff_ne,
    or_assoc]

/-- What makes a look-up give an answer: the newest answer that was accepted for the request's
key is this one, is still fresh, and was stored for a request that this one agrees with. -/
def State.Answers (s : State) (r : FetchRequest) (p : Response) : Prop :=
  ∃ a, s.latest? r.key = some a ∧ a.response = p ∧ a.Fresh s.now ∧ a.Agrees r

theorem State.lookup_of_sound {s : State} (h : s.Sound) (r : FetchRequest) :
    (Bypasses r ∧ (s.store.lookup s.now r).1 = .bypass) ∨
    (¬ Bypasses r ∧ ∃ p, s.Answers r p ∧ (s.store.lookup s.now r).1 = .hit p) ∨
    (¬ Bypasses r ∧ (∀ p, ¬ s.Answers r p) ∧ (s.store.lookup s.now r).1 = .miss) := by
  unfold ResponseStore.lookup
  split
  · next hbypass => exact .inl ⟨(bypasses_iff r).mp hbypass, rfl⟩
  next hbypass =>
  rw [bypasses_iff] at hbypass
  cases hget : s.store.entries.get? r.key with
  | none =>
    refine .inr (.inr ⟨hbypass, ?_, rfl⟩)
    rintro p ⟨a, hlatest, -, hfresh, -⟩
    obtain ⟨e, he, -⟩ := h.kept _ a hlatest hfresh
    rw [hget] at he
    cases he
  | some e =>
    obtain ⟨a, hlatest, hstored⟩ := h.newest _ e hget
    have hfresh := Accepted.isFresh_of_stored? hstored s.now
    have haccepts := Accepted.accepts_of_stored? hstored r
    simp only
    split
    · next hstale =>
      refine .inr (.inr ⟨hbypass, ?_, rfl⟩)
      rintro p ⟨a', hlatest', -, hfresh', -⟩
      rw [hlatest] at hlatest'
      cases hlatest'
      rw [hfresh.mpr hfresh'] at hstale
      cases hstale
    next hnow =>
    simp only [Bool.not_eq_true, Bool.not_eq_false'] at hnow
    split
    · next hagrees =>
      exact .inr (.inl ⟨hbypass, e.response,
        ⟨a, hlatest, (Accepted.response_of_stored? hstored).symm, hfresh.mp hnow, haccepts.mp hagrees⟩, rfl⟩)
    · next hagrees =>
      refine .inr (.inr ⟨hbypass, ?_, rfl⟩)
      rintro p ⟨a', hlatest', -, -, hagrees'⟩
      rw [hlatest] at hlatest'
      cases hlatest'
      exact hagrees (haccepts.mpr hagrees')

/-- After any history of a new store, a look-up is passed by exactly for the requests that forbid
it, and else gives exactly the newest accepted answer of its key, as long as that is fresh and
varies by nothing that the two requests differ in. All accepted answers were allowed to be. -/
theorem lookup_exact (capacity : Nat) (clock : Clock) (events : List Event) (r : FetchRequest) :
    let s := (State.fresh capacity clock).run events
    ((s.store.lookup s.now r).1 = .bypass ↔ Bypasses r) ∧
      (∀ p, (s.store.lookup s.now r).1 = .hit p ↔ ¬ Bypasses r ∧ s.Answers r p) ∧
      ((s.store.lookup s.now r).1 = .miss ↔ ¬ Bypasses r ∧ ∀ p, ¬ s.Answers r p) ∧
      ∀ a ∈ s.accepted, a.Allowed := by
  intro s
  have hs : s.Sound := State.run_sound (State.fresh_sound capacity clock) events
  refine ⟨?_, ?_, ?_, hs.allowed⟩
  · rcases State.lookup_of_sound hs r with ⟨hb, heq⟩ | ⟨hb, p, -, heq⟩ | ⟨hb, -, heq⟩ <;> simp [heq, hb]
  · intro q
    rcases State.lookup_of_sound hs r with ⟨hb, heq⟩ | ⟨hb, p, hp, heq⟩ | ⟨hb, hno, heq⟩
    · simp [heq, hb]
    · simp only [heq, Lookup.hit.injEq, hb, not_false_eq_true, true_and]
      constructor
      · rintro rfl
        exact hp
      · rintro ⟨a, hlatest, rfl, -⟩
        obtain ⟨a', hlatest', rfl, -⟩ := hp
        rw [hlatest] at hlatest'
        cases hlatest'
        rfl
    · simp [heq, hb, hno q]
  · rcases State.lookup_of_sound hs r with ⟨hb, heq⟩ | ⟨hb, p, hp, heq⟩ | ⟨hb, hno, heq⟩
    · simp [heq, hb]
    · simp only [heq, reduceCtorEq, hb, not_false_eq_true, true_and, false_iff]
      intro hno
      exact hno p hp
    · simp [heq, hb, hno]

end EdgeCompose.ResponseHistory
