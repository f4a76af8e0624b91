import NumericContract.Proofs.Decimal.Extent

/-!
# Infinities and NaNs among the operands

A quiet NaN is passed on by every operation. An infinity stays one, or the operation is invalid:
nothing else comes of it.
-/

namespace NumericContract.Decimal

variable {ctx : Context} {x y : Decimal} {low high l₁ h₁ l₂ h₂ : ℤ}

/-! ## Numbers of limited extent and quiet NaNs -/

/-- A number of limited extent, or a quiet NaN. -/
def Ordinary (low high : ℤ) : Decimal → Prop
  | .finite x => Within low high x.value
  | .infinity _ => False
  | .nan signaling _ _ => signaling = false

namespace Ordinary

theorem finite {x : Finite} (h : Within low high x.value) : (Decimal.finite x).Ordinary low high := h

theorem ofInt {n : ℤ} (h : |(n : ℚ)| ≤ 10 ^ high) : (Decimal.ofInt n).Ordinary 0 high := by
  have hvalue := Finite.value_ofInt n
  exact finite (hvalue ▸ Within.intCast h)

theorem lift (hx : x.Ordinary l₁ h₁) (hy : y.Ordinary l₂ h₂) {special : Except Signal Decimal}
    {numbers : Finite → Finite → Except Signal Finite}
    (hnumbers : ∀ u v, x = .finite u → y = .finite v →
      ∃ z, numbers u v = .ok z ∧ Within low high z.value) :
    ∃ z, Decimal.lift ctx x y special numbers = .ok z ∧ z.Ordinary low high := by
  cases x with
  | infinity s => exact hx.elim
  | nan signaling s payload =>
      have hquiet : signaling = false := hx
      subst hquiet
      cases y with
      | infinity t => exact hy.elim
      | nan signaling' t payload' =>
          have hquiet' : signaling' = false := hy
          subst hquiet'
          exact ⟨_, rfl, rfl⟩
      | finite v => exact ⟨_, rfl, rfl⟩
  | finite u =>
      cases y with
      | infinity t => exact hy.elim
      | nan signaling' t payload' =>
          have hquiet' : signaling' = false := hy
          subst hquiet'
          exact ⟨_, rfl, rfl⟩
      | finite v =>
          obtain ⟨z, hz, hzw⟩ := hnumbers u v rfl rfl
          refine ⟨.finite z, ?_, hzw⟩
          unfold Decimal.lift
          simp [propagate, hz, Except.map]

theorem add (ctx : Context) (low high : ℤ) (hx : x.Ordinary l₁ h₁) (hy : y.Ordinary l₂ h₂)
    (hlow : low ≤ l₁ ∧ low ≤ l₂) (hhigh : h₁ < high ∧ h₂ < high) (hroom : Roomy low high) :
    ∃ z, x.add ctx y = .ok z ∧ z.Ordinary low high := by
  apply hx.lift hy
  rintro u v rfl rfl
  exact Finite.add_within ctx low high hx hy hlow hhigh hroom

theorem sub (ctx : Context) (low high : ℤ) (hx : x.Ordinary l₁ h₁) (hy : y.Ordinary l₂ h₂)
    (hlow : low ≤ l₁ ∧ low ≤ l₂) (hhigh : h₁ < high ∧ h₂ < high) (hroom : Roomy low high) :
    ∃ z, x.sub ctx y = .ok z ∧ z.Ordinary low high := by
  apply hx.lift hy
  rintro u v rfl rfl
  exact Finite.sub_within ctx low high hx hy hlow hhigh hroom

theorem mul (ctx : Context) (low high : ℤ) (hx : x.Ordinary l₁ h₁) (hy : y.Ordinary l₂ h₂)
    (hlow : low ≤ l₁ + l₂) (hhigh : h₁ + h₂ ≤ high) (hroom : Roomy low high) :
    ∃ z, x.mul ctx y = .ok z ∧ z.Ordinary low high := by
  apply hx.lift hy
  rintro u v rfl rfl
  exact Finite.mul_within ctx low high hx hy hlow hhigh hroom

theorem div (ctx : Context) (low high : ℤ) (hx : x.Ordinary l₁ h₁) (hy : y.Ordinary l₂ h₂)
    (hyz : y.isZero = .ok false) (hlow : low ≤ l₁ - h₂ - ctx.precision) (hhigh : h₁ - l₂ ≤ high)
    (hroom : Roomy low high) : ∃ z, x.div ctx y = .ok z ∧ z.Ordinary low high := by
  apply hx.lift hy
  rintro u v rfl rfl
  exact Finite.div_within ctx low high hx hy (Except.ok.inj hyz) hlow hhigh hroom

theorem isZero_succeeds (h : x.Ordinary low high) : ∃ b, x.isZero = .ok b := by
  cases x with
  | finite u => exact ⟨_, rfl⟩
  | infinity s => exact h.elim
  | nan signaling s payload =>
      have hquiet : signaling = false := h
      subst hquiet
      exact ⟨false, rfl⟩

end Ordinary

/-! ## Infinities -/

/-- What an operation with an infinity comes to. -/
def Diverges (result : Except Signal Decimal) : Prop :=
  result = .error .invalidOperation ∨ ∃ negative, result = .ok (.infinity negative)

theorem Diverges.bind {result : Except Signal Decimal} {f : Decimal → Except Signal Decimal}
    (h : Diverges result) (hf : ∀ negative, Diverges (f (.infinity negative))) :
    Diverges (result >>= f) := by
  rcases h with h | ⟨negative, h⟩
  · rw [h]
    exact Or.inl rfl
  · rw [bind_of_ok h]
    exact hf negative

theorem sub_finite_infinity (ctx : Context) (u : Finite) (s : Bool) :
    sub ctx (.finite u) (.infinity s) = .ok (.infinity !s) := rfl

theorem sub_infinity_finite (ctx : Context) (s : Bool) (v : Finite) :
    sub ctx (.infinity s) (.finite v) = .ok (.infinity s) := rfl

theorem add_finite_infinity (ctx : Context) (u : Finite) (s : Bool) :
    add ctx (.finite u) (.infinity s) = .ok (.infinity s) := rfl

theorem add_infinity_finite (ctx : Context) (s : Bool) (v : Finite) :
    add ctx (.infinity s) (.finite v) = .ok (.infinity s) := rfl

theorem sub_infinities (ctx : Context) (s t : Bool) : Diverges (sub ctx (.infinity s) (.infinity t)) := by
  cases s <;> cases t
  · exact Or.inl rfl
  · exact Or.inr ⟨_, rfl⟩
  · exact Or.inr ⟨_, rfl⟩
  · exact Or.inl rfl

theorem mul_finite_infinity (ctx : Context) (u : Finite) (s : Bool) :
    Diverges (mul ctx (.finite u) (.infinity s)) := by
  cases hu : u.isZero with
  | true =>
      left
      simp [mul, Decimal.lift, propagate, hu]
  | false =>
      right
      simp [mul, Decimal.lift, propagate, hu]

theorem mul_infinity_finite (ctx : Context) (s : Bool) {v : Finite} (hv : v.isZero = false) :
    mul ctx (.infinity s) (.finite v) = .ok (.infinity (s ^^ v.negative)) := by
  simp [mul, Decimal.lift, propagate, hv, signBit]

theorem mul_infinities (ctx : Context) (s t : Bool) :
    mul ctx (.infinity s) (.infinity t) = .ok (.infinity (s ^^ t)) := rfl

theorem div_infinity_finite (ctx : Context) (s : Bool) (v : Finite) :
    div ctx (.infinity s) (.finite v) = .ok (.infinity (s ^^ v.negative)) := rfl

theorem div_infinities (ctx : Context) (s t : Bool) :
    div ctx (.infinity s) (.infinity t) = .error .invalidOperation := rfl

end NumericContract.Decimal
