import Mathlib.Data.List.Basic
import Mathlib.Data.List.Induction

/-!
# MinionAgent.Library.PathStack

Lexical evaluation of the components of a path on a stack: empty components and
`.` are dropped, `..` takes the component below it back.

* `eval_plain` — what an evaluation from a root leaves is plain: no `.`, `..` or
  empty component;
* `eval_append` — evaluating in two steps is evaluating at once;
* `eval_components_text` — plain components come back from their text.
-/

namespace PathStack

variable {α : Type} {dot : α} {above : Bool} {isSep : α → Bool} {slash : α}

/-- The components of a text. -/
def components (isSep : α → Bool) (text : List α) : List (List α) := text.splitOnP isSep

/-- The text of components. -/
def text (slash : α) (cs : List (List α)) : List α := List.intercalate [slash] cs

/-! ## Texts -/

variable {cs : List (List α)}

theorem components_append {a : α} (h : isSep a = true) (xs ys : List α) :
    components isSep (xs ++ a :: ys) = components isSep xs ++ components isSep ys :=
  List.splitOnP_append_cons xs ys h

@[simp] theorem components_nil : components isSep [] = [[]] := rfl

theorem components_eq_singleton {xs : List α} (h : ∀ a ∈ xs, isSep a = false) : components isSep xs = [xs] :=
  List.splitOnP_eq_singleton h

theorem not_sep_of_mem_components {xs c : List α} (h : c ∈ components isSep xs) : ∀ a ∈ c, isSep a = false := by
  induction xs generalizing c with
  | nil => simp_all
  | cons x xs ih =>
    rw [components, List.splitOnP_cons_eq_if_modifyHead] at h
    split_ifs at h with hx
    · cases List.mem_cons.mp h with
      | inl hnil => simp [hnil]
      | inr hmem => exact ih hmem
    · cases hparts : xs.splitOnP isSep with
      | nil => exact absurd hparts (List.splitOnP_ne_nil isSep xs)
      | cons first rest =>
        rw [hparts, List.modifyHead_cons] at h
        cases List.mem_cons.mp h with
        | inl hfirst =>
          have := ih (c := first) (by rw [components, hparts]; exact List.mem_cons_self)
          simp_all
        | inr hmem => exact ih (by rw [components, hparts]; exact List.mem_cons_of_mem _ hmem)

@[simp] theorem text_nil : text slash [] = [] := rfl

@[simp] theorem text_singleton (c : List α) : text slash [c] = c := by simp [text]

theorem text_cons (h : cs ≠ []) (c : List α) : text slash (c :: cs) = c ++ slash :: text slash cs := by
  rw [text, List.intercalate_cons_of_ne_nil h, text]
  simp

theorem text_concat (h : cs ≠ []) (c : List α) : text slash (cs ++ [c]) = text slash cs ++ slash :: c := by
  induction cs with
  | nil => exact absurd rfl h
  | cons d cs ih =>
    cases cs with
    | nil => simp [text_cons]
    | cons e cs =>
      rw [List.cons_append, text_cons (by simp), ih (by simp), text_cons (List.cons_ne_nil e cs)]
      simp

/-- Components come back from their text. -/
theorem components_text (hslash : isSep slash = true) (hne : cs ≠ []) (h : ∀ c ∈ cs, ∀ a ∈ c, isSep a = false) :
    components isSep (text slash cs) = cs := by
  induction cs with
  | nil => exact absurd rfl hne
  | cons c cs ih =>
    have hc := h c List.mem_cons_self
    cases cs with
    | nil => rw [text_singleton, components_eq_singleton hc]
    | cons d cs =>
      have hcs := ih (by simp) fun e he => h e (List.mem_cons_of_mem _ he)
      rw [text_cons (by simp), components_append hslash, hcs, components_eq_singleton hc]
      rfl

theorem text_ne_nil (h : ∀ c ∈ cs, c ≠ []) (hne : cs ≠ []) : text slash cs ≠ [] := by
  cases cs with
  | nil => exact absurd rfl hne
  | cons c cs =>
    have hc := h c List.mem_cons_self
    by_cases hcs : cs = []
    · subst hcs
      rwa [text_singleton]
    · rw [text_cons hcs]
      simp

/-! ## The stack -/

variable [DecidableEq α]

/-- A `..` onto the stack, whose top is its head: where there is nothing to take
back it is kept or dropped. -/
def up (dot : α) (above : Bool) : List (List α) → List (List α)
  | [] => if above then [[dot, dot]] else []
  | top :: below =>
    if top ≠ [dot, dot] then below else if above then [dot, dot] :: top :: below else top :: below

/-- One component onto the stack. -/
def push (dot : α) (above : Bool) (stack : List (List α)) (c : List α) : List (List α) :=
  if c = [] ∨ c = [dot] then stack else if c = [dot, dot] then up dot above stack else c :: stack

/-- The components that are left, in order. -/
def eval (dot : α) (above : Bool) (cs : List (List α)) : List (List α) := (cs.foldl (push dot above) []).reverse

/-- A component that stays: neither empty nor `.` nor `..`. -/
def Plain (dot : α) (c : List α) : Prop := c ≠ [] ∧ c ≠ [dot] ∧ c ≠ [dot, dot]

instance : DecidablePred (Plain dot) := fun _ => inferInstanceAs (Decidable (_ ∧ _ ∧ _))

theorem push_of_plain {c : List α} (h : Plain dot c) (stack : List (List α)) :
    push dot above stack c = c :: stack := by
  obtain ⟨hne, hdot, hdots⟩ := h
  rw [push, if_neg (by simp [hne, hdot]), if_neg hdots]

/-- From a root, a stack of plain components stays one. -/
theorem push_plain {stack : List (List α)} (h : ∀ c ∈ stack, Plain dot c) (c : List α) :
    ∀ d ∈ push dot false stack c, Plain dot d := by
  rw [push]
  split_ifs with hskip hdots
  · exact h
  · cases stack with
    | nil => simp [up]
    | cons top below =>
      rw [up, if_pos (h top List.mem_cons_self).2.2]
      exact fun d hd => h d (List.mem_cons_of_mem _ hd)
  · intro d hd
    cases List.mem_cons.mp hd with
    | inl heq =>
      subst heq
      exact ⟨fun hnil => hskip (.inl hnil), fun hdot => hskip (.inr hdot), hdots⟩
    | inr hmem => exact h d hmem

theorem foldl_push_plain {stack : List (List α)} (h : ∀ c ∈ stack, Plain dot c) (cs : List (List α)) :
    ∀ d ∈ cs.foldl (push dot false) stack, Plain dot d := by
  induction cs generalizing stack with
  | nil => exact h
  | cons c cs ih => exact ih (push_plain h c)

theorem eval_plain (cs : List (List α)) : ∀ d ∈ eval dot false cs, Plain dot d := by
  intro d hd
  exact foldl_push_plain (by simp) cs d (List.mem_reverse.mp hd)

/-- Plain components are only pushed. -/
theorem foldl_push_of_plain (h : ∀ c ∈ cs, Plain dot c) (stack : List (List α)) :
    cs.foldl (push dot above) stack = cs.reverse ++ stack := by
  induction cs generalizing stack with
  | nil => rfl
  | cons c cs ih =>
    rw [List.foldl_cons, push_of_plain (h c List.mem_cons_self), ih fun d hd => h d (List.mem_cons_of_mem _ hd)]
    simp

theorem eval_of_plain (h : ∀ c ∈ cs, Plain dot c) : eval dot above cs = cs := by
  rw [eval, foldl_push_of_plain h]
  simp

/-- What is evaluated first may be replaced by its result. -/
theorem eval_append (cs ds : List (List α)) : eval dot false (eval dot false cs ++ ds) = eval dot false (cs ++ ds) := by
  rw [eval, List.foldl_append, foldl_push_of_plain (eval_plain cs), eval, eval, List.foldl_append]
  simp

@[simp] theorem eval_nil : eval dot above ([] : List (List α)) = [] := rfl

theorem eval_nil_cons (cs : List (List α)) : eval dot above ([] :: cs) = eval dot above cs := by
  simp [eval, push]

theorem eval_concat_nil (cs : List (List α)) : eval dot above (cs ++ [[]]) = eval dot above cs := by
  simp [eval, push]

/-- Nothing is left that was not there. -/
theorem mem_of_mem_push {stack : List (List α)} {c d : List α} (h : d ∈ push dot above stack c) :
    d = c ∧ c ≠ [] ∨ d ∈ stack := by
  rw [push] at h
  split_ifs at h with hskip hdots
  · exact .inr h
  · have hne : c ≠ [] := fun hnil => hskip (.inl hnil)
    cases stack with
    | nil => cases above <;> simp_all [up]
    | cons top below =>
      rw [up] at h
      split_ifs at h
      · exact .inr (List.mem_cons_of_mem _ h)
      · exact (hdots ▸ List.mem_cons.mp h).imp_left fun heq => ⟨heq, hdots ▸ hne⟩
      · exact .inr h
  · exact (List.mem_cons.mp h).imp_left fun heq => ⟨heq, fun hnil => hskip (.inl hnil)⟩

theorem mem_of_mem_eval {d : List α} (h : d ∈ eval dot above cs) : d ∈ cs ∧ d ≠ [] := by
  rw [eval, List.mem_reverse] at h
  have hfold : ∀ stack, d ∈ cs.foldl (push dot above) stack → d ∈ cs ∧ d ≠ [] ∨ d ∈ stack := by
    clear h
    induction cs with
    | nil => exact fun _ hd => .inr hd
    | cons c cs ih =>
      intro stack hd
      cases ih _ hd with
      | inl hmem => exact .inl ⟨List.mem_cons_of_mem _ hmem.1, hmem.2⟩
      | inr hmem =>
        cases mem_of_mem_push hmem with
        | inl heq => exact .inl ⟨heq.1 ▸ List.mem_cons_self, heq.1 ▸ heq.2⟩
        | inr hstack => exact .inr hstack
  simpa using hfold [] h

theorem eval_components_text (hslash : isSep slash = true) (hplain : ∀ c ∈ cs, Plain dot c)
    (h : ∀ c ∈ cs, ∀ a ∈ c, isSep a = false) : eval dot above (components isSep (text slash cs)) = cs := by
  by_cases hne : cs = []
  · subst hne
    simp [eval, push]
  · rw [components_text hslash hne h, eval_of_plain hplain]

/-! ## Another alphabet -/

/-- A recoding that keeps the dots and tells components apart keeps the evaluation. -/
theorem eval_map {β : Type} [DecidableEq β] {f : List α → List β} {dot' : β} (hf : Function.Injective f)
    (hnil : f [] = [])
    (hdot : f [dot] = [dot']) (hdots : f [dot, dot] = [dot', dot']) (cs : List (List α)) :
    eval dot' above (cs.map f) = (eval dot above cs).map f := by
  have hpush : ∀ (stack : List (List α)) c, push dot' above (stack.map f) (f c) = (push dot above stack c).map f := by
    intro stack c
    have hskip : f c = [] ∨ f c = [dot'] ↔ c = [] ∨ c = [dot] := by
      rw [← hdot, hf.eq_iff]
      exact or_congr_left ⟨fun hc => hf (hc.trans hnil.symm), fun hc => hc ▸ hnil⟩
    have hup : ∀ d, f d = [dot', dot'] ↔ d = [dot, dot] := by
      intro d
      rw [← hdots, hf.eq_iff]
    rw [push, push]
    simp only [hskip, hup]
    split_ifs with h hc
    · rfl
    · cases stack with
      | nil => cases above <;> simp [up, hdots]
      | cons top below =>
        simp only [up, List.map_cons, ne_eq, hup]
        split_ifs <;> simp [hdots]
    · rfl
  have hfold : ∀ stack : List (List α),
      (cs.map f).foldl (push dot' above) (stack.map f) = (cs.foldl (push dot above) stack).map f := by
    induction cs with
    | nil => exact fun _ => rfl
    | cons c cs ih =>
      intro stack
      rw [List.map_cons, List.foldl_cons, hpush, ih, List.foldl_cons]
  have hstart := hfold []
  rw [List.map_nil] at hstart
  rw [eval, eval, hstart, List.map_reverse]

end PathStack
