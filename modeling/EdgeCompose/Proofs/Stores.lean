import EdgeCompose.Proofs.ResponseHistory
import EdgeCompose.Store.Fragments

/-!
What one operation does to a store: where an entry that is there afterwards came from, and which
entries the operation leaves alone.
-/

namespace EdgeCompose

namespace FragmentStore

variable {f : FragmentStore} {now : Int} {k key : FragmentKey} {e : FragmentEntry}

/-- What a look-up finds: nothing, an entry that has expired, or an entry that lasts. -/
theorem find_cases (f : FragmentStore) (now : Int) (k : FragmentKey) :
    (f.get? k = none ∧ find f now k = (none, f)) ∨
      (∃ e, f.get? k = some e ∧ e.isExpired now = true ∧ find f now k = (none, f.erase k)) ∨
      ∃ e, f.get? k = some e ∧ e.isExpired now = false ∧ find f now k = (some e.content, f) := by
  cases he : f.get? k with
  | none =>
    refine .inl ⟨rfl, ?_⟩
    simp only [find, he]
  | some e =>
    cases hlasts : e.isExpired now with
    | true =>
      refine .inr (.inl ⟨e, rfl, hlasts, ?_⟩)
      simp only [find, he, hlasts, if_pos]
    | false =>
      refine .inr (.inr ⟨e, rfl, hlasts, ?_⟩)
      simp [find, he, hlasts]

theorem find_of_none (h : f.get? k = none) : find f now k = (none, f) := by
  rcases find_cases f now k with ⟨-, heq⟩ | ⟨e, he, -, -⟩ | ⟨e, he, -, -⟩
  · exact heq
  · cases h.symm.trans he
  · cases h.symm.trans he

theorem find_of_get? (h : f.get? k = some e) (hlasts : e.isExpired now = false) :
    find f now k = (some e.content, f) := by
  rcases find_cases f now k with ⟨hnone, -⟩ | ⟨e', he, hexpired, -⟩ | ⟨e', he, -, heq⟩
  · cases h.symm.trans hnone
  · obtain rfl := Option.some.inj (h.symm.trans he)
    cases hlasts.symm.trans hexpired
  · obtain rfl := Option.some.inj (h.symm.trans he)
    exact heq

theorem get?_find_ne (hne : key ≠ k) : (find f now k).2.get? key = f.get? key := by
  rcases find_cases f now k with ⟨-, heq⟩ | ⟨e, -, -, heq⟩ | ⟨e, -, -, heq⟩
  · rw [heq]
  · rw [heq, Table.get?_erase, if_neg hne]
  · rw [heq]

theorem get?_of_find (h : (find f now k).2.get? key = some e) : f.get? key = some e := by
  rcases find_cases f now k with ⟨-, heq⟩ | ⟨e', -, -, heq⟩ | ⟨e', -, -, heq⟩
  · rwa [heq] at h
  · rw [heq, Table.get?_erase] at h
    split at h
    · cases h
    · exact h
  · rwa [heq] at h

theorem get?_of_content {content : Text} (h : (find f now k).1 = some content) :
    ∃ e, f.get? k = some e ∧ e.content = content := by
  rcases find_cases f now k with ⟨-, heq⟩ | ⟨e, -, -, heq⟩ | ⟨e, he, -, heq⟩
  · rw [heq] at h
    cases h
  · rw [heq] at h
    cases h
  · rw [heq] at h
    exact ⟨e, he, Option.some.inj h⟩

theorem storeFetched_cases (f : FragmentStore) (now : Int) (k : FragmentKey) (content : Text)
    (expires : Option Int) :
    (f.isPinned now k = true ∧ storeFetched f now k content expires = (false, f)) ∨
      (f.isPinned now k = false ∧
        storeFetched f now k content expires = (true, f.insert k { content, expires })) := by
  unfold storeFetched
  cases f.isPinned now k with
  | true => exact .inl ⟨rfl, rfl⟩
  | false => exact .inr ⟨rfl, rfl⟩

theorem get?_storeFetched_ne (hne : key ≠ k) (content : Text) (expires : Option Int) :
    (storeFetched f now k content expires).2.get? key = f.get? key := by
  rcases storeFetched_cases f now k content expires with ⟨-, heq⟩ | ⟨-, heq⟩
  · rw [heq]
  · rw [heq, Table.get?_insert, if_neg hne]

theorem get?_of_storeFetched {content : Text} {expires : Option Int}
    (h : (storeFetched f now k content expires).2.get? key = some e) :
    f.get? key = some e ∨ key = k ∧ e.content = content := by
  rcases storeFetched_cases f now k content expires with ⟨-, heq⟩ | ⟨-, heq⟩
  · rw [heq] at h
    exact .inl h
  · rw [heq, Table.get?_insert] at h
    split at h
    · next hk =>
      cases h
      exact .inr ⟨hk, rfl⟩
    · exact .inl h

end FragmentStore

namespace ResponseStore

open ResponseHistory

variable {s : ResponseStore} {now : Int} {r : FetchRequest} {key : RequestKey} {e : StoredResponse}

theorem get?_of_lookup (h : (s.lookup now r).2.entries.get? key = some e) :
    s.entries.get? key = some e := by
  rcases lookup_cases s now r with heq | ⟨_, -, -, heq⟩
  · rwa [heq] at h
  · rw [heq, Table.get?_erase] at h
    split at h
    · cases h
    · exact h

theorem get?_of_hit {response : Response} (h : (s.lookup now r).1 = .hit response) :
    ∃ e, s.entries.get? r.key = some e ∧ e.response = response := by
  unfold lookup at h
  split at h
  · cases h
  · split at h
    · cases h
    · next e he =>
      split at h
      · cases h
      · split at h
        · exact ⟨e, he, Lookup.hit.inj h⟩
        · cases h

theorem get?_of_store {response : Response}
    (h : (s.store now r response).2.entries.get? key = some e) :
    s.entries.get? key = some e ∨ key = r.key ∧ e.response = response := by
  have hroom := (get?_makeRoom s now r.key key e).1
  rcases store_cases s now r response with ⟨e', hstored, heq⟩ | ⟨_, -, heq | heq⟩
  · simp only [heq, Table.get?_insert] at h
    split at h
    · next hkey =>
      cases h
      exact .inr ⟨hkey, Accepted.response_of_stored? hstored⟩
    · exact .inl (hroom h)
  · rw [heq] at h
    exact .inl h
  · rw [heq] at h
    exact .inl (hroom h)

end ResponseStore

end EdgeCompose
