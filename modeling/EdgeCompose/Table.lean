/-!
Finite maps from keys to values, as lists without a repeated key. What a table holds is read
through `get?`; the lemmas say what each operation does to that reading and to the size.
-/

namespace EdgeCompose

structure Table (κ β : Type) where
  entries : List (κ × β) := []
  nodup : (entries.map Prod.fst).Nodup := by exact List.nodup_nil

namespace Table

variable {κ β : Type} [DecidableEq κ]

def empty : Table κ β := { entries := [] }

instance : Inhabited (Table κ β) := ⟨empty⟩

instance : EmptyCollection (Table κ β) := ⟨empty⟩

def size (t : Table κ β) : Nat := t.entries.length

def isEmpty (t : Table κ β) : Bool := t.entries.isEmpty

def get? (t : Table κ β) (k : κ) : Option β := t.entries.lookup k

def contains (t : Table κ β) (k : κ) : Bool := (t.get? k).isSome

def keys (t : Table κ β) : List κ := t.entries.map Prod.fst

omit [DecidableEq κ] in
private theorem nodup_filter {entries : List (κ × β)} (p : κ × β → Bool)
    (h : (entries.map Prod.fst).Nodup) : ((entries.filter p).map Prod.fst).Nodup :=
  List.Nodup.sublist (List.Sublist.map Prod.fst List.filter_sublist) h

/-- Keeps the entries that `p` holds of. -/
def filter (p : κ → β → Bool) (t : Table κ β) : Table κ β where
  entries := t.entries.filter fun e => p e.1 e.2
  nodup := nodup_filter _ t.nodup

def erase (t : Table κ β) (k : κ) : Table κ β := t.filter fun key _ => !decide (key = k)

private theorem nodup_insert (t : Table κ β) (k : κ) (v : β) :
    (((t.erase k).entries ++ [(k, v)]).map Prod.fst).Nodup := by
  rw [List.map_append, List.nodup_append]
  refine ⟨(t.erase k).nodup, by simp, ?_⟩
  simp only [erase, filter, List.mem_map, List.mem_filter]
  rintro a ⟨e, ⟨_, he⟩, rfl⟩ b ⟨f, hf, rfl⟩
  rw [List.mem_singleton.mp hf]
  simpa using he

/-- Gives `k` the value `v`, in place of any it had. -/
def insert (t : Table κ β) (k : κ) (v : β) : Table κ β where
  entries := (t.erase k).entries ++ [(k, v)]
  nodup := nodup_insert t k v

/-- The table of a list of pairs; of two pairs with one key the later counts. -/
def ofList (pairs : List (κ × β)) : Table κ β :=
  pairs.foldl (fun t e => t.insert e.1 e.2) empty

theorem lookup_filter_key (entries : List (κ × β)) (p : κ → Bool) (k : κ) :
    (entries.filter fun e => p e.1).lookup k = if p k then entries.lookup k else none := by
  induction entries with
  | nil => simp
  | cons e rest ih =>
    obtain ⟨a, b⟩ := e
    by_cases hk : k = a
    · subst hk
      cases hp : p k with
      | true => simp [hp]
      | false => simp [hp, ih]
    · have hb : (k == a) = false := by simpa using hk
      cases hp : p a <;> simp [List.lookup_cons, hp, hb, ih]

@[simp] theorem get?_empty (k : κ) : (empty : Table κ β).get? k = none := rfl

omit [DecidableEq κ] in
@[simp] theorem size_empty : (empty : Table κ β).size = 0 := rfl

theorem get?_erase (t : Table κ β) (k key : κ) :
    (t.erase k).get? key = if key = k then none else t.get? key := by
  unfold get? erase filter
  rw [lookup_filter_key t.entries (fun key => !decide (key = k))]
  by_cases h : key = k <;> simp [h]

theorem get?_insert (t : Table κ β) (k key : κ) (v : β) :
    (t.insert k v).get? key = if key = k then some v else t.get? key := by
  have h := get?_erase t k key
  unfold get? at h ⊢
  unfold insert
  rw [List.lookup_append, h]
  by_cases hk : key = k
  · simp [hk]
  · have hb : (key == k) = false := by simpa using hk
    simp [hk, List.lookup_cons, hb]

@[simp] theorem get?_insert_self (t : Table κ β) (k : κ) (v : β) :
    (t.insert k v).get? k = some v := by
  simp [get?_insert]

/-- Of two pairs with one key the later counts. -/
theorem get?_ofList [BEq κ] [LawfulBEq κ] (pairs : List (κ × β)) (k : κ) :
    (ofList pairs).get? k = pairs.reverse.lookup k := by
  have hfold (t : Table κ β) : (pairs.foldl (fun t e => t.insert e.1 e.2) t).get? k =
      (pairs.reverse.lookup k).or (t.get? k) := by
    induction pairs generalizing t with
    | nil => simp
    | cons e pairs ih =>
      obtain ⟨a, b⟩ := e
      rw [List.foldl_cons, ih, get?_insert, List.reverse_cons, List.lookup_append, Option.or_assoc]
      by_cases hk : k = a
      · simp [hk]
      · have hb : (k == a) = false := by simpa using hk
        simp [hk, List.lookup_cons, hb]
  simpa [ofList] using hfold empty

theorem mem_entries_of_get? {t : Table κ β} {k : κ} {v : β} (h : t.get? k = some v) :
    (k, v) ∈ t.entries :=
  List.lookup_eq_some_iff.mp h |>.elim fun before ⟨after, he, _⟩ => by simp [he]

theorem get?_of_mem_entries {t : Table κ β} {k : κ} {v : β} (h : (k, v) ∈ t.entries) :
    t.get? k = some v := by
  obtain ⟨entries, hd⟩ := t
  simp only [get?] at h ⊢
  induction entries with
  | nil => cases h
  | cons e rest ih =>
    obtain ⟨a, b⟩ := e
    simp only [List.map_cons, List.nodup_cons] at hd
    rcases List.mem_cons.mp h with heq | hmem
    · cases heq
      simp
    · have hne : (k == a) = false := by
        simp only [beq_eq_false_iff_ne, ne_eq]
        rintro rfl
        exact hd.1 (List.mem_map_of_mem (f := Prod.fst) hmem)
      simp [List.lookup_cons, hne, ih hd.2 hmem]

/-- A table holds `v` under `k` exactly when the pair is one of its entries. -/
theorem get?_eq_some_iff {t : Table κ β} {k : κ} {v : β} :
    t.get? k = some v ↔ (k, v) ∈ t.entries :=
  ⟨mem_entries_of_get?, get?_of_mem_entries⟩

theorem get?_filter (t : Table κ β) (p : κ → β → Bool) (k : κ) :
    (t.filter p).get? k = (t.get? k).filter (p k) := by
  cases h : t.get? k with
  | none =>
    cases hf : (t.filter p).get? k with
    | none => rfl
    | some v =>
      have := mem_entries_of_get? hf
      simp only [filter, List.mem_filter] at this
      rw [get?_of_mem_entries this.1] at h
      cases h
  | some v =>
    cases hp : p k v with
    | true =>
      simp only [Option.filter, hp, if_true]
      apply get?_of_mem_entries
      simp [filter, mem_entries_of_get? h, hp]
    | false =>
      simp only [Option.filter, hp, Bool.false_eq_true, if_false]
      cases hf : (t.filter p).get? k with
      | none => rfl
      | some w =>
        have := mem_entries_of_get? hf
        simp only [filter, List.mem_filter] at this
        have hw := get?_of_mem_entries this.1
        rw [h] at hw
        cases hw
        simp_all

end Table

end EdgeCompose
