import PagedIndex.Error

/-!
# Rules for computations that keep what they did

A computation is described by what holds of its result and of the state it leaves, whether it ends
with a value or with an error.

## Main definitions

* `Ends` — a computation from a state ends in a result and a state with a property.
* `ending` — the result and the state.
* `Guarantee` — what is guaranteed of the parts of a computation and so of the whole.
* `Fails` — a computation that fails with certain errors only.
-/

namespace PagedIndex

variable {ε σ α β : Type} {x : EStateM ε σ α} {f : α → EStateM ε σ β} {s s' : σ}

/-- `x` from `s` ends in a result and a state of which `Q` holds. -/
def Ends (x : EStateM ε σ α) (s : σ) (Q : Except ε α → σ → Prop) : Prop :=
  match x s with
  | .ok a s' => Q (.ok a) s'
  | .error e s' => Q (.error e) s'

def ending (x : EStateM ε σ α) (s : σ) : Except ε α × σ :=
  match x s with
  | .ok a s' => (.ok a, s')
  | .error e s' => (.error e, s')

namespace Ends

variable {P Q : Except ε α → σ → Prop} {R : Except ε β → σ → Prop}

theorem of_ok {a : α} (h : Ends x s Q) (hx : x s = .ok a s') : Q (.ok a) s' := by
  unfold Ends at h
  rwa [hx] at h

theorem of_error {e : ε} (h : Ends x s Q) (hx : x s = .error e s') : Q (.error e) s' := by
  unfold Ends at h
  rwa [hx] at h

theorem eq_ok {a : α} (h : Ends x s fun r t => r = .ok a ∧ t = s') : x s = .ok a s' := by
  unfold Ends at h
  cases hx : x s with
  | ok b t =>
    rw [hx] at h
    obtain ⟨⟨⟩, rfl⟩ := h
    rfl
  | error e t =>
    rw [hx] at h
    cases h.1

theorem ending (h : Ends x s Q) : Q (ending x s).1 (ending x s).2 := by
  unfold Ends at h
  unfold PagedIndex.ending
  split at h <;> exact h

theorem mono (h : Ends x s P) (hPQ : ∀ r s', P r s' → Q r s') : Ends x s Q := by
  unfold Ends at h ⊢
  split at h <;> exact hPQ _ _ h

theorem and (h : Ends x s P) (h' : Ends x s Q) : Ends x s fun r s' => P r s' ∧ Q r s' := by
  unfold Ends at h h' ⊢
  split at h <;> simp_all

/-- What holds of the end for each index holds of it for all. -/
theorem all {ι : Sort _} {Q : ι → Except ε α → σ → Prop} (h : ∀ i, Ends x s (Q i)) :
    Ends x s fun r s' => ∀ i, Q i r s' := by
  unfold Ends at *
  cases hx : x s <;> simp only [hx] at h ⊢ <;> exact h

theorem pure {a : α} (h : Q (.ok a) s) : Ends (Pure.pure a) s Q := h

theorem throw {e : ε} (h : Q (.error e) s) : Ends (MonadExcept.throw e) s Q := h

theorem bind (hx : Ends x s P) (herror : ∀ e s', P (.error e) s' → R (.error e) s')
    (hok : ∀ a s', P (.ok a) s' → Ends (f a) s' R) : Ends (x >>= f) s R := by
  show match EStateM.bind x f s with
    | .ok a s' => R (.ok a) s'
    | .error e s' => R (.error e) s'
  unfold Ends at hx
  unfold EStateM.bind
  split at hx
  · next a s' h => rw [h]; exact hok a s' hx
  · next e s' h => rw [h]; exact herror e s' hx

/-- Behind a computation that ends with a value. -/
theorem ok_bind {a : α} (hx : x s = .ok a s') (h : Ends (f a) s' R) : Ends (x >>= f) s R := by
  have hbind : (x >>= f) s = f a s' := by
    show EStateM.bind x f s = _
    unfold EStateM.bind
    rw [hx]
  unfold Ends
  rw [hbind]
  exact h

/-- Behind one that ends with an error. -/
theorem error_bind {e : ε} (hx : x s = .error e s') (h : R (.error e) s') : Ends (x >>= f) s R := by
  have hbind : (x >>= f) s = .error e s' := by
    show EStateM.bind x f s = _
    unfold EStateM.bind
    rw [hx]
  unfold Ends
  rw [hbind]
  exact h

theorem get_bind {f : σ → EStateM ε σ β} (h : Ends (f s) s R) : Ends (get >>= f) s R := h

theorem modify_bind {g : σ → σ} {f : PUnit → EStateM ε σ β} (h : Ends (f ⟨⟩) (g s) R) :
    Ends (modify g >>= f) s R := h

theorem attempt_bind {f : Except ε α → EStateM ε σ β} (hx : Ends x s P)
    (h : ∀ r s', P r s' → Ends (f r) s' R) : Ends (attempt x >>= f) s R := by
  unfold Ends at hx
  have hbind : (attempt x >>= f) s = match x s with
      | .ok a s' => f (.ok a) s'
      | .error e s' => f (.error e) s' := by
    show EStateM.bind (attempt x) f s = _
    unfold EStateM.bind attempt
    cases x s <;> rfl
  split at hx
  · next a s' hxs => rw [hxs] at hbind; unfold Ends; rw [hbind]; exact h _ _ hx
  · next e s' hxs => rw [hxs] at hbind; unfold Ends; rw [hbind]; exact h _ _ hx

/-- What is done at first may be left out. -/
theorem ite_bind {c : Prop} [Decidable c] {x : EStateM ε σ PUnit} {f : PUnit → EStateM ε σ β}
    (h : Ends ((if c then x else Pure.pure ⟨⟩) >>= f) s R) :
    Ends (if c then x >>= f else f ⟨⟩) s R := by
  by_cases hc : c
  · rwa [if_pos hc] at h ⊢
  · rwa [if_neg hc] at h ⊢

/-- A computation may begin like another one. -/
theorem congr_bind {y : EStateM ε σ α} (hxy : x s = y s) (h : Ends (y >>= f) s R) :
    Ends (x >>= f) s R := by
  have hbind : (x >>= f) s = (y >>= f) s := by
    show EStateM.bind x f s = EStateM.bind y f s
    unfold EStateM.bind
    rw [hxy]
  unfold Ends
  rw [hbind]
  exact h

end Ends

theorem ends_settle {r : Except ε α} {Q : Except ε α → σ → Prop} (h : Q r s) :
    Ends (settle r) s Q := by
  cases r <;> exact h

/-- A computation that ends as it did is described by what it ended with. -/
theorem ends_of_eq_ok {t : σ} {a : α} {Q : Except ε α → σ → Prop} (hx : x s = .ok a t)
    (h : Q (.ok a) t) : Ends x s Q := by
  unfold Ends
  rwa [hx]

theorem ends_of_eq_error {t : σ} {e : ε} {Q : Except ε α → σ → Prop} (hx : x s = .error e t)
    (h : Q (.error e) t) : Ends x s Q := by
  unfold Ends
  rwa [hx]

/-- A chain of checks is passed if each is. -/
theorem of_bind_eq_ok {a : Except ε α} {g : α → Except ε β} {b : β} (h : a >>= g = .ok b) :
    ∃ x, a = .ok x ∧ g x = .ok b := by
  cases a with
  | error e => cases h
  | ok x => exact ⟨x, rfl, h⟩

/-! ## Guarantees -/

/-- What is guaranteed of computations on a state: from states with an invariant they lead to
related ones, and they fail with certain errors only. -/
structure Guarantee (ε σ : Type) where
  Holds : σ → Prop
  Leads : σ → σ → Prop
  Fails : ε → Prop
  refl {s : σ} : Holds s → Leads s s
  trans {s t u : σ} : Leads s t → Leads t u → Leads s u
  keeps {s t : σ} : Holds s → Leads s t → Holds t

namespace Guarantee

def ofInvariant (I : σ → Prop) (F : ε → Prop) : Guarantee ε σ where
  Holds := I
  Leads _ t := I t
  Fails := F
  refl h := h
  trans _ h := h
  keeps _ h := h

/-- What is guaranteed of a part of the state. -/
def comap {τ : Type} (f : τ → σ) (G : Guarantee ε σ) : Guarantee ε τ where
  Holds s := G.Holds (f s)
  Leads s t := G.Leads (f s) (f t)
  Fails := G.Fails
  refl := G.refl
  trans := G.trans
  keeps := G.keeps

/-- What is guaranteed of the end of a computation whose value is to be one of `P`. -/
def Post (G : Guarantee ε σ) (P : α → Prop) (s : σ) (r : Except ε α) (t : σ) : Prop :=
  (∀ e, r = .error e → G.Fails e) ∧ G.Leads s t ∧ ∀ a, r = .ok a → P a

/-- The guarantee is met by a computation whose value is one of `P`. -/
def Meets (G : Guarantee ε σ) (P : α → Prop) (x : EStateM ε σ α) : Prop :=
  ∀ s, G.Holds s → Ends x s (G.Post P s)

/-- The guarantee is met by a computation, whatever its value. -/
abbrev Covers (G : Guarantee ε σ) (x : EStateM ε σ α) : Prop := G.Meets (fun _ => True) x

variable {G : Guarantee ε σ} {P P' : α → Prop} {Q : β → Prop}

namespace Post

theorem ok {a : α} (h : G.Leads s s') (ha : P a) : G.Post P s (.ok a) s' :=
  ⟨nofun, h, fun _ hb => Except.ok.inj hb ▸ ha⟩

theorem error {e : ε} (h : G.Leads s s') (he : G.Fails e) : G.Post P s (.error e) s' :=
  ⟨fun _ h' => Except.error.inj h' ▸ he, h, nofun⟩

/-- What is done first leads to where the rest begins. -/
theorem after {s'' : σ} {r : Except ε α} (h : G.Leads s s') (h' : G.Post P s' r s'') :
    G.Post P s r s'' := ⟨h'.1, G.trans h h'.2.1, h'.2.2⟩

theorem mono {r : Except ε α} (h : G.Post P s r s') (hP : ∀ a, P a → P' a) : G.Post P' s r s' :=
  ⟨h.1, h.2.1, fun a ha => hP a (h.2.2 a ha)⟩

/-- An error of a part is one of the whole. -/
theorem cast {e : ε} (h : G.Post P s (.error e) s') : G.Post Q s (.error e) s' :=
  .error h.2.1 (h.1 e rfl)

end Post

/-- Behind a part that meets the guarantee. -/
theorem Post.bind {x : EStateM ε σ α} {f : α → EStateM ε σ β} (hs : G.Holds s)
    (hx : Ends x s (G.Post P s)) (hf : ∀ a, P a → G.Meets Q (f a)) : Ends (x >>= f) s (G.Post Q s) :=
  Ends.bind hx (fun _ _ h => h.cast) fun a t h =>
    (hf a (h.2.2 a rfl) t (G.keeps hs h.2.1)).mono fun _ _ h' => .after h.2.1 h'

namespace Meets

theorem bind (hx : G.Meets P x) (hf : ∀ a, P a → G.Meets Q (f a)) : G.Meets Q (x >>= f) :=
  fun s hs => Post.bind hs (hx s hs) hf

theorem mono (h : G.Meets P x) (hP : ∀ a, P a → P' a) : G.Meets P' x :=
  fun s hs => (h s hs).mono fun _ _ h => h.mono hP

theorem pure {a : α} (ha : P a) : G.Meets P (Pure.pure a) := fun _ hs => .ok (G.refl hs) ha

theorem throw {e : ε} (he : G.Fails e) : G.Meets P (MonadExcept.throw e) :=
  fun _ hs => .error (G.refl hs) he

theorem settle {r : Except ε α} (hr : ∀ e, r = .error e → G.Fails e) (hP : ∀ a, r = .ok a → P a) :
    G.Meets P (PagedIndex.settle r) := fun _ hs => ends_settle ⟨hr, G.refl hs, hP⟩

theorem get_bind {f : σ → EStateM ε σ β} (hf : ∀ s, G.Holds s → G.Meets Q (f s)) :
    G.Meets Q (get >>= f) := fun s hs => Ends.get_bind (hf s hs s hs)

theorem modify {g : σ → σ} (hg : ∀ s, G.Holds s → G.Leads s (g s)) :
    G.Covers (modify g : EStateM ε σ PUnit) := fun s hs => .ok (hg s hs) trivial

/-- An attempt does not fail, and the error it tells is one that is let pass. -/
theorem attempt (hx : G.Meets P x) :
    G.Meets (fun r => ∀ e, r = .error e → G.Fails e) (PagedIndex.attempt x) := by
  intro s hs
  have h := hx s hs
  unfold Ends at *
  unfold PagedIndex.attempt
  cases hxs : x s <;> simp only [hxs] at h ⊢ <;> exact .ok h.2.1 h.1

theorem ite_bind {c : Prop} [Decidable c] {x : EStateM ε σ PUnit} {f : PUnit → EStateM ε σ β}
    (hx : G.Covers x) (hf : G.Meets Q (f ⟨⟩)) : G.Meets Q (if c then x >>= f else f ⟨⟩) := by
  split
  · exact hx.bind fun _ _ => hf
  · exact hf

theorem forM {f : β → EStateM ε σ PUnit} (hf : ∀ b, G.Covers (f b)) (l : List β) :
    G.Covers (l.forM f) := by
  induction l with
  | nil => exact pure trivial
  | cons b rest ih => exact bind (hf b) fun _ _ => ih

/-- Where the computation leads, whatever it ends with. -/
theorem leads (h : G.Meets P x) (hs : G.Holds s) : Ends x s fun _ t => G.Leads s t :=
  (h s hs).mono fun _ _ h => h.2.1

end Meets

/-- Nothing is asked of the state, and the errors are certain ones. -/
def failing (F : ε → Prop) : Guarantee ε σ := ofInvariant (fun _ => True) F

end Guarantee

/-- A computation that fails with errors of `F` only. -/
abbrev Fails (F : ε → Prop) (x : EStateM ε σ α) : Prop := (Guarantee.failing F).Covers x

namespace Fails

variable {F F' : ε → Prop}

theorem of_ends (h : ∀ s, Ends x s fun r _ => ∀ e, r = .error e → F e) : Fails F x := fun s _ =>
  (h s).mono fun _ _ hr => ⟨hr, trivial, fun _ _ => trivial⟩

theorem ends (h : Fails F x) (s : σ) : Ends x s fun r _ => ∀ e, r = .error e → F e :=
  (h s trivial).mono fun _ _ h => h.1

theorem mono (h : Fails F x) (hF : ∀ e, F e → F' e) : Fails F' x :=
  .of_ends fun s => (h.ends s).mono fun _ _ hr e he => hF e (hr e he)

theorem modify {g : σ → σ} : Fails F (modify g : EStateM ε σ PUnit) :=
  Guarantee.Meets.modify fun _ _ => trivial

/-- What an attempt ends with is told. -/
theorem attempt : Fails F (attempt x) := by
  refine .of_ends fun s => ?_
  unfold Ends PagedIndex.attempt
  cases x s <;> exact nofun

end Fails

end PagedIndex
