import EdgeCompose.Proofs.LockDiscipline

/-!
What all interleavings keep. A protocol upholds a property of worlds if every command that it allows
keeps the property, and if what its modes say of a world stays true whatever else is done in it.
Then programs that obey the protocol keep the property however they are interleaved (`Kept.run`).
-/

namespace EdgeCompose

open Program

/-- What happens to a world apart from the commands of programs. -/
inductive World.Disturbed (w : World) : World → Prop
  | passed (seconds : Nat) : Disturbed w (w.pass seconds)
  | invalidated (key : FragmentKey) : Disturbed w (w.invalidate key)
  | dismissed (who : Nat) : Disturbed w (w.dismiss who)

/-- `knows` is what a mode says of the world. -/
structure Upholds {μ : Type} (P : Protocol μ) (inv : World → Prop) (knows : World → μ → Prop) :
    Prop where
  replied {w w' : World} {who : Nat} {c : Command} {r : Reply c.Answer} {m : μ} : inv w →
    knows w m → P.allows m c → World.Replied w who c r w' →
    inv w' ∧ ∀ answer, r = .answer answer → P.gives m c answer ∧ knows w' (P.next m c answer)
  disturbed {w w' : World} : inv w → w.Disturbed w' → inv w'
  remains {w w' : World} {who : Nat} {c : Command} {r : Reply c.Answer} {m : μ} : knows w m →
    World.Replied w who c r w' → knows w' m
  stays {w w' : World} {m : μ} : knows w m → w.Disturbed w' → knows w' m

namespace System

variable {α μ : Type} {P : Protocol μ} {inv : World → Prop} {knows : World → μ → Prop}
  {s : System α}

/-- The world has the property, and what is left of every program obeys the protocol from a mode
that is right about the world. -/
structure Kept (P : Protocol μ) (inv : World → Prop) (knows : World → μ → Prop) (s : System α) :
    Prop where
  world : inv s.world
  programs : ∀ who rest, s.rest? who = some rest →
    ∃ m, knows s.world m ∧ rest.Obeys P (fun _ _ => True) m

namespace Kept

theorem start {w : World} (hw : inv w) {programs : List (Program α)}
    (hp : ∀ p ∈ programs, ∃ m, knows w m ∧ p.Obeys P (fun _ _ => True) m) :
    Kept P inv knows (System.start w programs) where
  world := hw
  programs := by
    intro who rest hrest
    rw [rest?_start] at hrest
    exact hp rest (List.mem_of_getElem? hrest)

/-- Another world of which the same is known. -/
private theorem moved (h : Kept P inv knows s) {w : World} (hw : inv w)
    (hknows : ∀ m, knows s.world m → knows w m) : Kept P inv knows { s with world := w } where
  world := hw
  programs := by
    intro who rest hrest
    obtain ⟨m, hm, hobeys⟩ := h.programs who rest hrest
    exact ⟨m, hknows m hm, hobeys⟩

private theorem put (h : Kept P inv knows s) {who : Nat} {rest : Option (Program α)}
    (hrest : ∀ p, (s.put who rest s.world).rest? who = some p →
      ∃ m, knows s.world m ∧ p.Obeys P (fun _ _ => True) m) :
    Kept P inv knows (s.put who rest s.world) where
  world := h.world
  programs := by
    intro other p hp
    by_cases hne : other = who
    · subst hne
      exact hrest p hp
    · rw [rest?_put_ne hne] at hp
      exact h.programs other p hp

private theorem disturbed (hup : Upholds P inv knows) (h : Kept P inv knows s) {w : World}
    (hw : s.world.Disturbed w) : Kept P inv knows { s with world := w } :=
  h.moved (hup.disturbed h.world hw) fun _ hknows => hup.stays hknows hw

private theorem giveUp (hup : Upholds P inv knows) (h : Kept P inv knows s) (who : Nat) :
    Kept P inv knows (s.giveUp who) := by
  refine (h.disturbed hup (.dismissed who)).put fun p hp => ?_
  have hgone := rest?_giveUp_self s who
  rw [System.giveUp] at hgone
  cases hgone.symm.trans hp

theorem step (hup : Upholds P inv knows) (h : Kept P inv knows s) (act : Act) :
    Kept P inv knows (s.step act) := by
  have hstepped := stepped s act
  generalize s.step act = after at hstepped ⊢
  cases hstepped with
  | still => exact h
  | @answered who c next answer w hwho hreply =>
    obtain ⟨m, hknows, hobeys⟩ := h.programs who _ hwho
    have hreplied := World.Replied.of_reply hreply
    obtain ⟨hinv, hanswer⟩ := hup.replied h.world hknows hobeys.1 hreplied
    obtain ⟨hgives, hnext⟩ := hanswer answer rfl
    refine (h.moved hinv fun _ hm => hup.remains hm hreplied).put fun p hp => ?_
    have hself := rest?_put_self hwho (some (next answer)) w
    obtain rfl := Option.some.inj (hself.symm.trans hp)
    exact ⟨_, hnext, hobeys.2 answer hgives⟩
  | @waited who c next w hwho hreply =>
    obtain ⟨m, hknows, hobeys⟩ := h.programs who _ hwho
    have hreplied := World.Replied.of_reply hreply
    exact h.moved (hup.replied h.world hknows hobeys.1 hreplied).1 fun _ hm =>
      hup.remains hm hreplied
  | @overflowed who c next w hwho hreply =>
    obtain ⟨m, hknows, hobeys⟩ := h.programs who _ hwho
    have hreplied := World.Replied.of_reply hreply
    have hleft : Kept P inv knows { s with world := w } :=
      h.moved (hup.replied h.world hknows hobeys.1 hreplied).1 fun _ hm => hup.remains hm hreplied
    exact hleft.giveUp hup who
  | gaveUp => exact h.giveUp hup _
  | passed => exact h.disturbed hup (.passed _)
  | invalidated => exact h.disturbed hup (.invalidated _)

theorem run (hup : Upholds P inv knows) (h : Kept P inv knows s) (acts : List Act) :
    Kept P inv knows (s.run acts) :=
  run_induction (Kept P inv knows) (fun _ act h => h.step hup act) h acts

end Kept

end System

end EdgeCompose
