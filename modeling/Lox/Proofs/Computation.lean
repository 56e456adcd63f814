/-!
# Computations with state and exceptions

How a sequence of two computations ends, in terms of how its parts end.
-/

namespace Lox.Computation

variable {ε σ α β : Type} {x : EStateM ε σ α} {f : α → EStateM ε σ β} {s t : σ}

theorem bind_of_ok {a : α} (h : x s = .ok a t) : (x >>= f) s = f a t := by
  change EStateM.bind x f s = f a t
  simp only [EStateM.bind, h]

theorem bind_of_error {e : ε} (h : x s = .error e t) : (x >>= f) s = .error e t := by
  change EStateM.bind x f s = .error e t
  simp only [EStateM.bind, h]

theorem bind_eq_bind {y : EStateM ε σ α} (h : x s = y t) : (x >>= f) s = (y >>= f) t := by
  change EStateM.bind x f s = EStateM.bind y f t
  simp only [EStateM.bind, h]

theorem get_bind (f : σ → EStateM ε σ β) (s : σ) : (get >>= f) s = f s s :=
  rfl

theorem bind_eq_ok_iff {b : β} :
    (x >>= f) s = .ok b t ↔ ∃ a u, x s = .ok a u ∧ f a u = .ok b t := by
  cases h : x s with
  | ok a u =>
    rw [bind_of_ok h]
    constructor
    · intro hf
      exact ⟨a, u, rfl, hf⟩
    · rintro ⟨a', u', heq, hf⟩
      cases heq
      exact hf
  | error e u =>
    rw [bind_of_error h]
    constructor
    · intro heq
      cases heq
    · rintro ⟨a, u', heq, -⟩
      cases heq

theorem run'_eq_some_iff {a : α} : x.run' s = some a ↔ ∃ t, x s = .ok a t := by
  unfold EStateM.run' EStateM.run
  cases x s with
  | ok b t =>
    constructor
    · rintro ⟨⟩
      exact ⟨t, rfl⟩
    · rintro ⟨_, ⟨⟩⟩
      rfl
  | error e t =>
    constructor
    · rintro ⟨⟩
    · rintro ⟨_, ⟨⟩⟩

/-- Every result that a computation may have, from whatever state, has a property. -/
def Yields (P : α → Prop) (x : EStateM ε σ α) : Prop :=
  ∀ s a t, x s = .ok a t → P a

namespace Yields

variable {P : α → Prop} {Q : β → Prop}

theorem pure {a : α} (ha : P a) : Yields P (Pure.pure a : EStateM ε σ α) := by
  intro s b t h
  cases h
  exact ha

theorem throw (e : ε) : Yields P (MonadExcept.throw e : EStateM ε σ α) := by
  intro s a t h
  cases h

theorem bind (hx : Yields P x) (hf : ∀ a, P a → Yields Q (f a)) : Yields Q (x >>= f) := by
  intro s b t h
  obtain ⟨a, u, ha, hb⟩ := bind_eq_ok_iff.1 h
  exact hf a (hx s a u ha) u b t hb

theorem any (x : EStateM ε σ α) : Yields (fun _ ↦ True) x :=
  fun _ _ _ _ ↦ trivial

/-- Where nothing is known of the first result. -/
theorem bind_any (x : EStateM ε σ α) (hf : ∀ a, Yields Q (f a)) : Yields Q (x >>= f) :=
  (any x).bind fun a _ ↦ hf a

end Yields

/-- However a computation ends, the state before and the one behind it are in a relation. -/
def Moves (R : σ → σ → Prop) (x : EStateM ε σ α) : Prop :=
  ∀ s, match x s with
    | .ok _ t => R s t
    | .error _ t => R s t

namespace Moves

variable {R : σ → σ → Prop}

theorem pure (hrefl : ∀ s, R s s) (a : α) : Moves R (Pure.pure a : EStateM ε σ α) :=
  hrefl

theorem throw (hrefl : ∀ s, R s s) (e : ε) : Moves R (MonadExcept.throw e : EStateM ε σ α) :=
  hrefl

theorem bind (htrans : ∀ {s t u}, R s t → R t u → R s u) (hx : Moves R x)
    (hf : ∀ a, Moves R (f a)) : Moves R (x >>= f) := by
  intro s
  have hfirst := hx s
  cases hr : x s with
  | error e t =>
    rw [hr] at hfirst
    rw [bind_of_error hr]
    exact hfirst
  | ok a t =>
    rw [hr] at hfirst
    have hsecond := hf a t
    rw [bind_of_ok hr]
    generalize f a t = r at hsecond ⊢
    cases r with
    | ok b u => exact htrans hfirst hsecond
    | error e u => exact htrans hfirst hsecond

theorem mono {R' : σ → σ → Prop} (h : Moves R x) (himp : ∀ s t, R s t → R' s t) : Moves R' x := by
  intro s
  have hends := h s
  split at hends
  · exact himp s _ hends
  · exact himp s _ hends

theorem get {f : σ → EStateM ε σ β} (hf : ∀ s, Moves R (f s)) : Moves R (MonadState.get >>= f) :=
  fun s ↦ hf s s

theorem of_ok {a : α} (h : Moves R x) (hx : x s = .ok a t) : R s t := by
  have hmoves := h s
  rw [hx] at hmoves
  exact hmoves

theorem of_error {e : ε} (h : Moves R x) (hx : x s = .error e t) : R s t := by
  have hmoves := h s
  rw [hx] at hmoves
  exact hmoves

end Moves

/-- However a computation ends, the state has a property. -/
def EndsIn (P : σ → Prop) (x : EStateM ε σ α) (s : σ) : Prop :=
  match x s with
  | .ok _ t => P t
  | .error _ t => P t

namespace EndsIn

variable {P P' : σ → Prop}

theorem intro (hok : ∀ a t, x s = .ok a t → P t) (herror : ∀ e t, x s = .error e t → P t) :
    EndsIn P x s := by
  unfold EndsIn
  split
  · exact hok _ _ ‹_›
  · exact herror _ _ ‹_›

theorem any (h : ∀ t, P t) : EndsIn P x s :=
  intro (fun _ t _ ↦ h t) fun _ t _ ↦ h t

theorem «exists» (h : EndsIn P x s) : ∃ t, P t := by
  unfold EndsIn at h
  split at h
  · exact ⟨_, h⟩
  · exact ⟨_, h⟩

theorem mono (h : EndsIn P x s) (himp : ∀ t, P t → P' t) : EndsIn P' x s := by
  unfold EndsIn at h ⊢
  split at h
  · exact himp _ h
  · exact himp _ h

theorem get {f : σ → EStateM ε σ β} (h : EndsIn P (f s) s) : EndsIn P (MonadState.get >>= f) s :=
  h

/-- What moves on from a state ends in one that it moves to. -/
theorem of_moves {R : σ → σ → Prop} (h : Moves R x) (s : σ) : EndsIn (R s) x s :=
  h s

theorem of_ok {a : α} (h : EndsIn P x s) (hx : x s = .ok a t) : P t := by
  unfold EndsIn at h
  rw [hx] at h
  exact h

theorem of_error {e : ε} (h : EndsIn P x s) (hx : x s = .error e t) : P t := by
  unfold EndsIn at h
  rw [hx] at h
  exact h

theorem bind_of_ok {a : α} (hx : x s = .ok a t) (hf : EndsIn P (f a) t) :
    EndsIn P (x >>= f) s := by
  unfold EndsIn
  rw [Computation.bind_of_ok hx]
  exact hf

theorem bind_of_error {e : ε} (hx : x s = .error e t) (ht : P t) : EndsIn P (x >>= f) s := by
  unfold EndsIn
  rw [Computation.bind_of_error hx]
  exact ht

theorem bind (hx : EndsIn P x s) (hf : ∀ a t, P t → EndsIn P (f a) t) :
    EndsIn P (x >>= f) s := by
  cases h : x s with
  | ok a t => exact bind_of_ok h (hf a t (hx.of_ok h))
  | error e t => exact bind_of_error h (hx.of_error h)

end EndsIn

section Related

variable {ε' σ' α' β' : Type}

/-- Two computations have ended alike: both with results or both with exceptions. -/
inductive Alike (S : σ → σ' → Prop) (E : ε → ε' → Prop) (V : α → α' → Prop) :
    EStateM.Result ε σ α → EStateM.Result ε' σ' α' → Prop
  | ok {a : α} {a' : α'} {s : σ} {s' : σ'} (ha : V a a') (hs : S s s') :
      Alike S E V (.ok a s) (.ok a' s')
  | error {e : ε} {e' : ε'} {s : σ} {s' : σ'} (he : E e e') (hs : S s s') :
      Alike S E V (.error e s) (.error e' s')

/-- From states that correspond two computations end alike. -/
def Related (S : σ → σ' → Prop) (E : ε → ε' → Prop) (V : α → α' → Prop) (x : EStateM ε σ α)
    (y : EStateM ε' σ' α') : Prop :=
  ∀ s s', S s s' → Alike S E V (x s) (y s')

namespace Related

variable {S : σ → σ' → Prop} {E : ε → ε' → Prop} {V : α → α' → Prop} {W : β → β' → Prop}
  {y : EStateM ε' σ' α'} {g : α' → EStateM ε' σ' β'}

theorem pure {a : α} {a' : α'} (ha : V a a') :
    Related S E V (Pure.pure a : EStateM ε σ α) (Pure.pure a' : EStateM ε' σ' α') :=
  fun _ _ hs ↦ .ok ha hs

theorem throw {e : ε} {e' : ε'} (he : E e e') :
    Related S E V (MonadExcept.throw e : EStateM ε σ α) (MonadExcept.throw e' : EStateM ε' σ' α') :=
  fun _ _ hs ↦ .error he hs

theorem bind (hx : Related S E V x y) (hf : ∀ a a', V a a' → Related S E W (f a) (g a')) :
    Related S E W (x >>= f) (y >>= g) := by
  intro s s' hs
  have hends := hx s s' hs
  generalize hr : x s = r at hends
  generalize hr' : y s' = r' at hends
  cases hends with
  | ok ha ht =>
    rw [bind_of_ok hr, bind_of_ok hr']
    exact hf _ _ ha _ _ ht
  | error he ht =>
    rw [bind_of_error hr, bind_of_error hr']
    exact .error he ht

theorem mono {V' : α → α' → Prop} (h : Related S E V x y) (hV : ∀ a a', V a a' → V' a a') :
    Related S E V' x y := by
  intro s s' hs
  have hends := h s s' hs
  generalize x s = r at hends ⊢
  generalize y s' = r' at hends ⊢
  cases hends with
  | ok ha ht => exact .ok (hV _ _ ha) ht
  | error he ht => exact .error he ht

/-- What is known of the results of one of the two. -/
theorem and_yields {P : α → Prop} (h : Related S E V x y) (hx : Yields P x) :
    Related S E (fun a a' ↦ V a a' ∧ P a) x y := by
  intro s s' hs
  have hends := h s s' hs
  have hresult := hx s
  generalize x s = r at hends hresult ⊢
  generalize y s' = r' at hends ⊢
  cases hends with
  | ok ha ht => exact .ok ⟨ha, hresult _ _ rfl⟩ ht
  | error he ht => exact .error he ht

theorem map {k : α → β} {k' : α' → β'} (hx : Related S E V x y)
    (hk : ∀ a a', V a a' → W (k a) (k' a')) : Related S E W (k <$> x) (k' <$> y) := by
  intro s s' hs
  have hends := hx s s' hs
  change Alike S E W (EStateM.map k x s) (EStateM.map k' y s')
  simp only [EStateM.map]
  generalize x s = r at hends ⊢
  generalize y s' = r' at hends ⊢
  cases hends with
  | ok ha ht => exact .ok (hk _ _ ha) ht
  | error he ht => exact .error he ht

end Related

end Related

end Lox.Computation
