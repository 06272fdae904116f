/-!
# Agendas

An agenda is a list of tasks, the next one first. Working on a task replaces it by finitely many smaller ones.
However large their number, this comes to an end if the order of tasks is well-founded: `Agenda.wellFounded`.
-/

namespace MacroLang.Agenda

variable {α : Type}

/-- The second agenda has a first task, and the first agenda has tasks below it in its place. -/
inductive Replaces (lt : α → α → Prop) : List α → List α → Prop where
  | step {task : α} {rest new : List α} (smaller : ∀ t ∈ new, lt t task) :
    Replaces lt (new ++ rest) (task :: rest)

theorem acc_cons {lt : α → α → Prop} {task : α} (h : Acc lt task) :
    ∀ {rest : List α}, Acc (Replaces lt) rest → Acc (Replaces lt) (task :: rest) := by
  induction h with
  | intro task _ ih =>
    intro rest hrest
    refine Acc.intro _ fun agenda hagenda => ?_
    cases hagenda with
    | step smaller =>
      rename_i new
      induction new with
      | nil => exact hrest
      | cons t new ihnew =>
        exact ih t (smaller t List.mem_cons_self)
          (ihnew fun u hu => smaller u (List.mem_cons_of_mem _ hu))

theorem wellFounded {lt : α → α → Prop} (h : WellFounded lt) : WellFounded (Replaces lt) := by
  refine ⟨fun agenda => ?_⟩
  induction agenda with
  | nil => exact Acc.intro _ fun _ hagenda => nomatch hagenda
  | cons task rest ih => exact acc_cons (h.apply task) ih

end MacroLang.Agenda
