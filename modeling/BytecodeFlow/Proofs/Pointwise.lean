import BytecodeFlow.Proofs.Except
import Mathlib.Data.List.Forall2

namespace BytecodeFlow

theorem forall₂_iff_getElem? {R : α → β → Prop} {xs : List α} {ys : List β} :
    List.Forall₂ R xs ys ↔ xs.length = ys.length ∧
      ∀ {i : Nat} {a : α} {b : β}, xs[i]? = some a → ys[i]? = some b → R a b := by
  rw [List.forall₂_iff_get]
  refine and_congr_right fun hlen => ⟨fun h i a b ha hb => ?_, fun h i hx hy => ?_⟩
  · obtain ⟨hx, rfl⟩ := List.getElem?_eq_some_iff.1 ha
    obtain ⟨hy, rfl⟩ := List.getElem?_eq_some_iff.1 hb
    exact h i hx hy
  · exact h (List.getElem?_eq_getElem hx) (List.getElem?_eq_getElem hy)

theorem exists_of_forall₂ {R : α → β → Prop} {xs : List α} {ys : List β} (h : List.Forall₂ R xs ys)
    {i : Nat} {b : β} (hb : ys[i]? = some b) : ∃ a, xs[i]? = some a ∧ R a b := by
  have hlt : i < xs.length := by
    rw [h.length_eq]
    exact (List.getElem?_eq_some_iff.1 hb).1
  have ha := List.getElem?_eq_getElem hlt
  exact ⟨_, ha, (forall₂_iff_getElem?.1 h).2 ha hb⟩

theorem map_eq_of_forall₂ {R : α → β → Prop} {xs : List α} {ys : List β} (h : List.Forall₂ R xs ys)
    {f : α → γ} {g : β → γ} (hfg : ∀ a ∈ xs, ∀ b, R a b → f a = g b) : xs.map f = ys.map g := by
  induction h with
  | nil => rfl
  | cons hab _ ih =>
    rw [List.map_cons, List.map_cons, hfg _ List.mem_cons_self _ hab,
      ih fun a ha => hfg a (List.mem_cons_of_mem _ ha)]

theorem forall₂_set {R : α → β → Prop} {xs : List α} {ys : List β} (h : List.Forall₂ R xs ys)
    (i : Nat) {a : α} {b : β} (hab : R a b) : List.Forall₂ R (xs.set i a) (ys.set i b) := by
  induction h generalizing i with
  | nil => exact .nil
  | cons hx hs ih =>
    cases i with
    | zero => exact .cons hab hs
    | succ i => exact .cons hx (ih i)

theorem forall₂_of_mapM {f : α → Except ε β} {xs : List α} {ys : List β} (h : xs.mapM f = .ok ys) :
    List.Forall₂ (fun x y => f x = .ok y) xs ys := by
  induction xs generalizing ys with
  | nil =>
    cases h
    exact .nil
  | cons x xs ih =>
    simp only [List.mapM_cons, bind_eq_ok, pure_eq_ok] at h
    obtain ⟨y, hx, zs, hs, rfl⟩ := h
    exact .cons hx (ih hs)

theorem exists_mapM_eq_ok {f : α → Except ε β} {xs : List α} :
    (∃ ys, xs.mapM f = .ok ys) ↔ ∀ x ∈ xs, ∃ y, f x = .ok y := by
  induction xs with
  | nil => exact ⟨fun _ => by simp, fun _ => ⟨[], rfl⟩⟩
  | cons x xs ih =>
    rw [List.forall_mem_cons, ← ih]
    simp only [List.mapM_cons, bind_eq_ok, pure_eq_ok]
    constructor
    · rintro ⟨_, y, hx, ys, hs, -⟩
      exact ⟨⟨y, hx⟩, ys, hs⟩
    · rintro ⟨⟨y, hx⟩, ys, hs⟩
      exact ⟨_, y, hx, ys, hs, rfl⟩

end BytecodeFlow
