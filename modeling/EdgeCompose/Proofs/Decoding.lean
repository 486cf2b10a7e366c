import EdgeCompose.Text.Utf8

/-!
Reading bytes as UTF-8, with replacement characters for what is none. What was written is read back
(`decode_encode`), so reading and writing again leaves exactly the valid bodies as they are
(`encode_decode_iff`). And reading makes up nothing: an ASCII text that is read out of some bytes
stands among them (`infix_of_decode`).
-/

namespace EdgeCompose.Utf8

/-! ## One byte -/

theorem run_cons (s : State) (b : UInt8) (rest : Bytes) :
    run s (b :: rest) = (step s b.toNat).1 ++ run (step s b.toNat).2 rest := by
  cases s <;> rfl

theorem first_ascii {k : Nat} (h : k < 0x80) : first k = ([Char.ofNat k], .idle) := if_pos h

/-- The byte that leads a character of three. -/
theorem first_three {k : Nat} (h : 0xE0 ≤ k) (h' : k < 0xF0) : first k =
    ([], .owing 2 (if k = 0xE0 then 0xA0 else 0x80) (if k = 0xED then 0x9F else 0xBF) (k - 0xE0)) := by
  unfold first
  rw [if_neg (by omega), if_neg (by omega), if_neg (by omega)]
  by_cases hfirst : k = 0xE0
  · subst hfirst
    rfl
  by_cases hsurrogate : k = 0xED
  · subst hsurrogate
    rfl
  simp [hfirst, hsurrogate, h']

/-- The byte that leads a character of four. -/
theorem first_four {k : Nat} (h : 0xF0 ≤ k) (h' : k < 0xF5) : first k =
    ([], .owing 3 (if k = 0xF0 then 0x90 else 0x80) (if k = 0xF4 then 0x8F else 0xBF) (k - 0xF0)) := by
  unfold first
  rw [if_neg (by omega), if_neg (by omega), if_neg (by omega)]
  by_cases hfirst : k = 0xF0
  · subst hfirst
    rfl
  by_cases hlast : k = 0xF4
  · subst hlast
    rfl
  have hinner : k < 0xF4 := by omega
  have houter : ¬ k < 0xF0 := by omega
  have hthree : k ≠ 0xE0 ∧ k ≠ 0xED := by omega
  simp [hfirst, hlast, hinner, houter, hthree]

section Bytes

variable {k low high bits : Nat} (rest : Bytes)

private theorem toNat_ofNat (h : k < 256) : (UInt8.ofNat k).toNat = k := by
  simpa using h

theorem run_idle_ofNat (h : k < 256) :
    run .idle (UInt8.ofNat k :: rest) = (first k).1 ++ run (first k).2 rest := by
  rw [run_cons, toNat_ofNat h]
  rfl

/-- A byte that continues a character. -/
theorem run_more (count : Nat) (hlow : low ≤ k) (hhigh : k ≤ high) (h : k < 256) :
    run (.owing (count + 2) low high bits) (UInt8.ofNat k :: rest) =
      run (.owing (count + 1) 0x80 0xBF (bits * 64 + (k - 0x80))) rest := by
  rw [run_cons, toNat_ofNat h]
  simp [step, hlow, hhigh]

/-- A byte that completes a character. -/
theorem run_last (hlow : low ≤ k) (hhigh : k ≤ high) (h : k < 256) :
    run (.owing 1 low high bits) (UInt8.ofNat k :: rest) =
      Char.ofNat (bits * 64 + (k - 0x80)) :: run .idle rest := by
  rw [run_cons, toNat_ofNat h]
  simp [step, hlow, hhigh]

end Bytes

/-! ## What was written is read back -/

theorem run_encodeChar (c : Char) (rest : Bytes) :
    run .idle (String.utf8EncodeChar c ++ rest) = c :: run .idle rest := by
  have hvalid : c.val.toNat < 0xD800 ∨ 0xDFFF < c.val.toNat ∧ c.val.toNat < 0x110000 := c.valid
  have hread : Char.ofNat c.val.toNat = c := Char.ofNat_toNat c
  unfold String.utf8EncodeChar
  generalize c.val.toNat = n at hvalid hread
  simp only
  split
  · rw [List.singleton_append, run_idle_ofNat rest (by omega)]
    rw [first_ascii (by omega), hread]
    rfl
  split
  · have hlead : first (n / 64 % 32 + 192) = ([], .owing 1 0x80 0xBF (n / 64 % 32 + 192 - 0xC0)) := by
      unfold first
      rw [if_neg (by omega), if_neg (by omega), if_pos (by omega)]
    rw [List.cons_append, run_idle_ofNat _ (by omega), hlead, List.nil_append, List.singleton_append,
      run_last rest (by omega) (by omega) (by omega)]
    have hbits : (n / 64 % 32 + 192 - 0xC0) * 64 + (n % 64 + 128 - 0x80) = n := by omega
    rw [hbits, hread]
  split
  · have hsecond : (if n / 4096 % 16 + 224 = 0xE0 then 0xA0 else 0x80) ≤ n / 64 % 64 + 128 ∧
        n / 64 % 64 + 128 ≤ (if n / 4096 % 16 + 224 = 0xED then 0x9F else 0xBF) := by
      constructor <;> split <;> omega
    rw [List.cons_append, run_idle_ofNat _ (by omega), first_three (by omega) (by omega),
      List.nil_append, List.cons_append, run_more _ 0 hsecond.1 hsecond.2 (by omega),
      List.singleton_append, run_last rest (by omega) (by omega) (by omega)]
    have hbits : ((n / 4096 % 16 + 224 - 0xE0) * 64 + (n / 64 % 64 + 128 - 0x80)) * 64 +
        (n % 64 + 128 - 0x80) = n := by omega
    rw [hbits, hread]
  · have hsecond : (if n / 262144 % 8 + 240 = 0xF0 then 0x90 else 0x80) ≤ n / 4096 % 64 + 128 ∧
        n / 4096 % 64 + 128 ≤ (if n / 262144 % 8 + 240 = 0xF4 then 0x8F else 0xBF) := by
      constructor <;> split <;> omega
    rw [List.cons_append, run_idle_ofNat _ (by omega), first_four (by omega) (by omega),
      List.nil_append, List.cons_append, run_more _ 1 hsecond.1 hsecond.2 (by omega),
      List.cons_append, run_more _ 0 (by omega) (by omega) (by omega),
      List.singleton_append, run_last rest (by omega) (by omega) (by omega)]
    have hbits : (((n / 262144 % 8 + 240 - 0xF0) * 64 + (n / 4096 % 64 + 128 - 0x80)) * 64 +
        (n / 64 % 64 + 128 - 0x80)) * 64 + (n % 64 + 128 - 0x80) = n := by omega
    rw [hbits, hread]

theorem decode_append (t : Text) (rest : Bytes) : decode (encode t ++ rest) = t ++ decode rest := by
  unfold decode encode
  induction t with
  | nil => rfl
  | cons c t ih => rw [List.flatMap_cons, List.append_assoc, run_encodeChar, ih, List.cons_append]

theorem decode_encode (t : Text) : decode (encode t) = t := by
  simpa [decode, run] using decode_append t []

/-- Reading and writing again changes exactly the bytes that are not UTF-8. -/
theorem encode_decode_iff (body : Bytes) :
    encode (decode body) = body ↔ ∃ t, body = encode t := by
  constructor
  · intro h
    exact ⟨decode body, h.symm⟩
  · rintro ⟨t, rfl⟩
    rw [decode_encode]

/-! ## Nothing is made up -/

/-- An ASCII character. The null character is left out: it also stands for numbers that are no
characters. -/
def IsAscii (c : Char) : Prop := 0 < c.toNat ∧ c.toNat < 0x80

instance (c : Char) : Decidable (IsAscii c) := inferInstanceAs (Decidable (_ ∧ _))

private theorem toNat_of_isValidChar {n : Nat} (h : n.isValidChar) : (Char.ofNat n).toNat = n := by
  rw [Char.ofNat, dif_pos h]
  rfl

theorem encode_ascii {b : UInt8} (h : b.toNat < 0x80) (t : Text) :
    encode (Char.ofNat b.toNat :: t) = b :: encode t := by
  have hvalid : b.toNat.isValidChar := .inl (Nat.lt_trans h (by decide))
  have hvalue : (Char.ofNat b.toNat).val.toNat = b.toNat := toNat_of_isValidChar hvalid
  have hbyte : String.utf8EncodeChar (Char.ofNat b.toNat) = [b] := by
    unfold String.utf8EncodeChar
    simp only [hvalue]
    rw [if_pos (by omega), UInt8.ofNat_toNat]
  rw [encode, List.flatMap_cons, hbyte]
  rfl

theorem not_isAscii_replacement : ¬ IsAscii replacement := by
  rintro ⟨-, h⟩
  revert h
  decide

theorem not_isAscii_ofNat {n : Nat} (h : 0x80 ≤ n) : ¬ IsAscii (Char.ofNat n) := by
  rintro ⟨hpos, hsmall⟩
  by_cases hvalid : n.isValidChar
  · rw [toNat_of_isValidChar hvalid] at hsmall
    omega
  · rw [Char.ofNat, dif_neg hvalid] at hpos
    cases hpos

/-- Inside a character enough has been read that it will not be an ASCII character. -/
def State.Grown : State → Prop
  | .idle => True
  | .owing count low _ bits =>
    0x80 ≤ low ∧ (if count ≤ 1 then 0x80 else 2) ≤ bits * 64 + (low - 0x80)

/-- What reading one byte gives, as far as ASCII goes. -/
inductive Reads (s : State) (b : Nat) : Text × State → Prop
  | ascii (before : Text) : b < 0x80 → (∀ c ∈ before, ¬ IsAscii c) → (before = [] → s = .idle) →
    Reads s b (before ++ [Char.ofNat b], .idle)
  | other {out : Text} {next : State} : out ≠ [] → (∀ c ∈ out, ¬ IsAscii c) → next.Grown →
    Reads s b (out, next)
  | nothing {next : State} : next ≠ .idle → next.Grown → Reads s b ([], next)

theorem reads_first (b : Nat) : Reads .idle b (first b) := by
  have hother : Reads .idle b ([replacement], .idle) :=
    .other (by simp) (by simpa using not_isAscii_replacement) trivial
  have howing {count low high bits : Nat} (h : (State.owing count low high bits).Grown) :
      Reads .idle b ([], .owing count low high bits) := .nothing nofun h
  unfold first
  split
  · next h => exact .ascii [] h (by simp) fun _ => rfl
  split
  · exact hother
  split
  · refine howing ⟨by omega, ?_⟩
    rw [if_pos (by omega)]
    omega
  split
  · exact howing ⟨by omega, by decide⟩
  split
  · exact howing ⟨by omega, by decide⟩
  split
  · next hzero _ _ =>
    refine howing ⟨by omega, ?_⟩
    rw [beq_iff_eq] at hzero
    rw [if_neg (by omega)]
    omega
  split
  · exact howing ⟨by omega, by decide⟩
  split
  · next hzero _ =>
    refine howing ⟨by omega, ?_⟩
    rw [beq_iff_eq] at hzero
    rw [if_neg (by omega)]
    omega
  split
  · exact howing ⟨by omega, by decide⟩
  · exact hother

theorem step_owing (count low high bits b : Nat) :
    step (.owing count low high bits) b =
      if (decide (low ≤ b) && decide (b ≤ high)) = true then
        if count ≤ 1 then ([Char.ofNat (bits * 64 + (b - 0x80))], .idle)
        else ([], .owing (count - 1) 0x80 0xBF (bits * 64 + (b - 0x80)))
      else (replacement :: (first b).1, (first b).2) :=
  rfl

theorem reads_step {s : State} (h : s.Grown) (b : Nat) : Reads s b (step s b) := by
  cases s with
  | idle => exact reads_first b
  | owing count low high bits =>
    obtain ⟨hlow, hgrown⟩ := h
    rw [step_owing]
    split
    · next hrange =>
      simp only [Bool.and_eq_true, decide_eq_true_eq] at hrange
      split
      · next hlast =>
        rw [if_pos hlast] at hgrown
        refine .other (by simp) ?_ trivial
        intro c hc
        rw [List.mem_singleton.mp hc]
        exact not_isAscii_ofNat (by omega)
      · next hmore =>
        rw [if_neg hmore] at hgrown
        refine .nothing nofun ⟨by omega, ?_⟩
        split <;> omega
    · -- The byte ends the open character and is read anew.
      have hfirst := reads_first b
      generalize first b = found at hfirst
      cases hfirst with
      | @ascii before hb hbefore _ =>
        refine .ascii (replacement :: before) hb ?_ (by simp)
        exact List.forall_mem_cons.mpr ⟨not_isAscii_replacement, hbefore⟩
      | other _ hout hnext =>
        exact .other (by simp) (List.forall_mem_cons.mpr ⟨not_isAscii_replacement, hout⟩) hnext
      | nothing _ hnext => exact .other (by simp) (by simpa using not_isAscii_replacement) hnext

/-- An ASCII text that is read first is what the bytes begin with. -/
theorem prefix_of_run {m : Text} {bytes : Bytes} {s : State} (hs : s.Grown)
    (hm : ∀ c ∈ m, IsAscii c) (hne : m ≠ []) (h : m <+: run s bytes) :
    s = .idle ∧ encode m <+: bytes := by
  induction bytes generalizing s m with
  | nil =>
    obtain ⟨c, m, rfl⟩ := List.exists_cons_of_ne_nil hne
    cases s with
    | idle => cases List.prefix_nil.mp h
    | owing count low high bits =>
      obtain ⟨rfl, -⟩ := List.cons_prefix_cons.mp h
      exact (not_isAscii_replacement (hm _ List.mem_cons_self)).elim
  | cons b bytes ih =>
    obtain ⟨c, m, rfl⟩ := List.exists_cons_of_ne_nil hne
    obtain ⟨hc, hm'⟩ := List.forall_mem_cons.mp hm
    have hreads := reads_step hs b.toNat
    rw [run_cons] at h
    generalize step s b.toNat = found at hreads h
    cases hreads with
    | @ascii before hb hbefore hidle =>
      cases before with
      | nil =>
        obtain ⟨rfl, hrest⟩ := List.cons_prefix_cons.mp h
        refine ⟨hidle rfl, ?_⟩
        rw [encode_ascii hb, List.cons_prefix_cons]
        refine ⟨rfl, ?_⟩
        by_cases hend : m = []
        · rw [hend]
          exact List.nil_prefix
        · exact (ih (s := .idle) trivial hm' hend hrest).2
      | cons first before =>
        obtain ⟨rfl, -⟩ := List.cons_prefix_cons.mp h
        exact (hbefore _ List.mem_cons_self hc).elim
    | @other out next hout hother _ =>
      obtain ⟨first, out, rfl⟩ := List.exists_cons_of_ne_nil hout
      obtain ⟨rfl, -⟩ := List.cons_prefix_cons.mp h
      exact (hother _ List.mem_cons_self hc).elim
    | nothing hopen hnext => exact (hopen (ih hnext hm hne h).1).elim

/-- An ASCII text does not overlap with what has no ASCII character in it. -/
theorem infix_of_append {m before rest : Text} (hbefore : ∀ c ∈ before, ¬ IsAscii c)
    (hm : ∀ c ∈ m, IsAscii c) (hne : m ≠ []) (h : m <:+: before ++ rest) : m <:+: rest := by
  induction before with
  | nil => exact h
  | cons first before ih =>
    obtain ⟨hfirst, hbefore⟩ := List.forall_mem_cons.mp hbefore
    rcases List.infix_cons_iff.mp h with hprefix | hinfix
    · obtain ⟨c, m, rfl⟩ := List.exists_cons_of_ne_nil hne
      obtain ⟨rfl, -⟩ := List.cons_prefix_cons.mp hprefix
      exact (hfirst (hm _ List.mem_cons_self)).elim
    · exact ih hbefore hinfix

/-- An ASCII text that is read out of some bytes stands among them. -/
theorem infix_of_run {m : Text} {bytes : Bytes} {s : State} (hs : s.Grown)
    (hm : ∀ c ∈ m, IsAscii c) (hne : m ≠ []) (h : m <:+: run s bytes) : encode m <:+: bytes := by
  induction bytes generalizing s with
  | nil =>
    cases s with
    | idle => exact (hne (List.infix_nil.mp h)).elim
    | owing count low high bits =>
      have hreplaced : m <:+: [replacement] ++ [] := h
      have hnone := infix_of_append (by simpa using not_isAscii_replacement) hm hne hreplaced
      exact (hne (List.infix_nil.mp hnone)).elim
  | cons b bytes ih =>
    have hreads := reads_step hs b.toNat
    rw [run_cons] at h
    generalize step s b.toNat = found at hreads h
    cases hreads with
    | @ascii before hb hbefore _ =>
      rw [List.append_assoc] at h
      have hread : run .idle (b :: bytes) = Char.ofNat b.toNat :: run .idle bytes := by
        rw [run_cons, step, first_ascii hb]
        rfl
      have hafter : m <:+: Char.ofNat b.toNat :: run .idle bytes := infix_of_append hbefore hm hne h
      rcases List.infix_cons_iff.mp hafter with hprefix | hinfix
      · rw [← hread] at hprefix
        exact (prefix_of_run (s := .idle) trivial hm hne hprefix).2.isInfix
      · exact (ih (s := .idle) trivial hinfix).trans (List.suffix_cons b bytes).isInfix
    | @other out next hout hother hnext =>
      exact (ih hnext (infix_of_append hother hm hne h)).trans (List.suffix_cons b bytes).isInfix
    | nothing hopen hnext => exact (ih hnext h).trans (List.suffix_cons b bytes).isInfix

theorem infix_of_decode {m : Text} {body : Bytes} (hm : ∀ c ∈ m, IsAscii c) (hne : m ≠ [])
    (h : m <:+: decode body) : encode m <:+: body :=
  infix_of_run (s := .idle) trivial hm hne h

end EdgeCompose.Utf8
