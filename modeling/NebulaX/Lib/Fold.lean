import Mathlib.Data.List.Basic

/-!
# Folds that may fail

A loop is a fold of a step that may fail. What every step keeps the loop keeps, and `Along` says
of a loop that every step of it satisfies a condition on the state it is made in: a loop whose
steps all satisfy the condition keeps what such a step keeps.

## Main results

* `keeps` — what every step keeps, the loop keeps
* `Along.keeps` — the same for steps that satisfy a condition
* `returns` — a loop returns if every step does
-/

namespace Fold

variable {σ α : Type*} {f : σ → α → Option σ} {P Q : σ → α → Prop} {I : σ → Prop}

/-- Every step of the loop satisfies `P`, in the state that it is made in. -/
def Along (f : σ → α → Option σ) (P : σ → α → Prop) : List α → σ → Prop
  | [], _ => True
  | a :: as, s => P s a ∧ ∀ s', f s a = some s' → Along f P as s'

/-- **Every step of a loop** keeps what the steps that satisfy its condition keep. -/
theorem Along.keeps {as : List α} {s s' : σ} (h : Along f P as s)
    (hstep : ∀ {s a s'}, P s a → I s → f s a = some s' → I s') (hs : I s)
    (hrun : as.foldlM f s = some s') : I s' := by
  induction as generalizing s with
  | nil => exact Option.some.inj hrun ▸ hs
  | cons a as ih =>
    obtain ⟨s₁, hfirst, hrest⟩ := Option.bind_eq_some_iff.mp hrun
    exact ih (h.2 s₁ hfirst) (hstep h.1 hs hfirst) hrest

/-- A condition that holds of every element. -/
theorem along_of_mem {as : List α} (h : ∀ a ∈ as, ∀ s, P s a) (s : σ) : Along f P as s := by
  induction as generalizing s with
  | nil => trivial
  | cons a as ih =>
    exact ⟨h a List.mem_cons_self s,
      fun s' _ => ih (fun a' ha' => h a' (List.mem_cons_of_mem a ha')) s'⟩

/-- A condition that always holds. -/
theorem along_of_forall (h : ∀ s a, P s a) (as : List α) (s : σ) : Along f P as s :=
  along_of_mem (fun a _ s => h s a) s

/-- A weaker condition. -/
theorem Along.mono (hle : ∀ s a, P s a → Q s a) {as : List α} {s : σ} (h : Along f P as s) :
    Along f Q as s := by
  induction as generalizing s with
  | nil => trivial
  | cons a as ih => exact ⟨hle s a h.1, fun s' hcall => ih (h.2 s' hcall)⟩

/-- **A loop keeps** what each of its steps keeps. -/
theorem keeps (hstep : ∀ {s a s'}, I s → f s a = some s' → I s') {as : List α} {s s' : σ}
    (hs : I s) (hrun : as.foldlM f s = some s') : I s' :=
  (along_of_forall (P := fun _ _ => True) (fun _ _ => trivial) as s).keeps
    (fun _ => hstep) hs hrun

/-- **A loop returns**, if every step does where something holds that it keeps. -/
theorem returns (hstep : ∀ s a, I s → ∃ s', f s a = some s' ∧ I s') (as : List α) {s : σ}
    (hs : I s) : ∃ s', as.foldlM f s = some s' ∧ I s' := by
  induction as generalizing s with
  | nil => exact ⟨s, rfl, hs⟩
  | cons a as ih =>
    obtain ⟨s₁, hfirst, hs₁⟩ := hstep s a hs
    obtain ⟨s', hrest, hs'⟩ := ih hs₁
    exact ⟨s', Option.bind_eq_some_iff.mpr ⟨s₁, hfirst, hrest⟩, hs'⟩

/-- A loop that cannot fail. -/
theorem foldlM_total (g : σ → α → σ) (as : List α) (s : σ) :
    as.foldlM (fun s a => some (g s a)) s = some (as.foldl g s) := by
  induction as generalizing s with
  | nil => rfl
  | cons a as ih => exact ih (g s a)

/-- A map that may fail gives as many as it is given, each for one. -/
theorem getElem?_of_mapM {β : Type*} {g : α → Option β} {as : List α} {bs : List β}
    (h : as.mapM g = some bs) : bs.length = as.length ∧
      ∀ (i : ℕ) (b : β), bs[i]? = some b → ∃ a, as[i]? = some a ∧ g a = some b := by
  induction as generalizing bs with
  | nil =>
    obtain rfl := Option.some.inj h
    exact ⟨rfl, fun i b hb => absurd hb (by simp)⟩
  | cons a as ih =>
    rw [List.mapM_cons] at h
    obtain ⟨b, hb, h⟩ := Option.bind_eq_some_iff.mp h
    obtain ⟨bs', hbs, heq⟩ := Option.bind_eq_some_iff.mp h
    obtain rfl := Option.some.inj heq
    obtain ⟨hlength, hget⟩ := ih hbs
    refine ⟨congrArg (· + 1) hlength, fun i b' hb' => ?_⟩
    cases i with
    | zero => exact ⟨a, rfl, hb.trans hb'⟩
    | succ i => exact hget i b' hb'

end Fold
