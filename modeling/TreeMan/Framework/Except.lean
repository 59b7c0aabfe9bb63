import Mathlib

/-!
# Inverting computations in `Except`

A computation in `Except ε` that succeeded succeeded at each step: a bind
(`bind_eq_ok`) at both of its parts, a `mapM` (`forall₂_of_mapM_eq_ok`)
at each element, with the result at its place, and a `mapError`
(`mapError_eq_ok`) with the same result. These are the inversion rules
for code written with `?` and `collect::<Result<_, _>>()`.
-/

namespace Except

variable {ε α β : Type}

theorem bind_eq_ok {x : Except ε α} {f : α → Except ε β} {b : β} :
    x >>= f = .ok b ↔ ∃ a, x = .ok a ∧ f a = .ok b := by
  cases x with
  | error e => simp [bind, Except.bind]
  | ok a => simp [bind, Except.bind]

theorem mapError_eq_ok {ε' : Type} {x : Except ε α} {f : ε → ε'} {a : α} :
    x.mapError f = .ok a ↔ x = .ok a := by
  cases x with
  | error e => simp [Except.mapError]
  | ok a' => simp [Except.mapError]

/-- A successful `mapM` relates each element of the list to the result at
its place. -/
theorem forall₂_of_mapM_eq_ok {f : α → Except ε β} :
    ∀ {l : List α} {r : List β}, l.mapM f = .ok r → List.Forall₂ (fun a b => f a = .ok b) l r
  | [], r, h => by
    simp only [List.mapM_nil, pure, Except.pure, Except.ok.injEq] at h
    subst h
    exact .nil
  | a :: l, r, h => by
    rw [List.mapM_cons] at h
    obtain ⟨b, hb, h⟩ := bind_eq_ok.mp h
    obtain ⟨rest, hrest, h⟩ := bind_eq_ok.mp h
    simp only [pure, Except.pure, Except.ok.injEq] at h
    subst h
    exact .cons hb (forall₂_of_mapM_eq_ok hrest)

/-- Each result of a successful `mapM` is the result at an element of the
list. -/
theorem mem_of_mapM_eq_ok {f : α → Except ε β} {l : List α} {r : List β}
    (h : l.mapM f = .ok r) : ∀ b ∈ r, ∃ a ∈ l, f a = .ok b := by
  have hf := forall₂_of_mapM_eq_ok h
  clear h
  induction hf with
  | nil => exact fun b hb => absurd hb List.not_mem_nil
  | @cons a b l r hab _ ih =>
    intro b' hb'
    rcases List.mem_cons.mp hb' with rfl | hb'
    · exact ⟨a, List.mem_cons_self, hab⟩
    · obtain ⟨a', ha', hf⟩ := ih b' hb'
      exact ⟨a', List.mem_cons_of_mem _ ha', hf⟩

/-- The results of a successful `mapM`, zipped with the list, are each the
result at its element. -/
theorem zip_of_mapM_eq_ok {f : α → Except ε β} {l : List α} {r : List β}
    (h : l.mapM f = .ok r) : ∀ p ∈ l.zip r, f p.1 = .ok p.2 :=
  fun _ hp => List.forall₂_zip (forall₂_of_mapM_eq_ok h) hp

end Except
