import Mathlib.Data.List.Basic

/-!
# Lib.Bytes

Byte strings, and cutting a list at a separator. The strings of Go are sequences
of bytes, of which UTF-8 is only the usual reading; everything that travels over
HTTP is modelled on `Bytes`.
-/

namespace Lib

abbrev Bytes := List UInt8

/-- The bytes of a string constant. -/
def utf8 (s : String) : Bytes := s.toUTF8.data.toList

section Cut

variable {α : Type} [DecidableEq α] {x : α}

/-- What precedes the first `x`, and what follows it, if there is one. -/
def cut (x : α) : List α → List α × Option (List α)
  | [] => ([], none)
  | c :: s => if c = x then ([], some s) else (c :: (cut x s).1, (cut x s).2)

theorem cut_append (x : α) {s : List α} (hs : x ∉ s) (t : List α) :
    cut x (s ++ t) = (s ++ (cut x t).1, (cut x t).2) := by
  induction s with
  | nil => rfl
  | cons c s ih =>
      obtain ⟨hc, hs⟩ := List.ne_and_not_mem_of_not_mem_cons hs
      rw [List.cons_append, cut, if_neg (Ne.symm hc), ih hs]
      rfl

theorem cut_of_not_mem {s : List α} (hs : x ∉ s) : cut x s = (s, none) := by
  simpa [cut] using cut_append x hs []

theorem cut_append_sep {s : List α} (hs : x ∉ s) (t : List α) :
    cut x (s ++ x :: t) = (s, some t) := by
  rw [cut_append x hs, cut, if_pos rfl]
  simp

theorem cut_append_of_mem {s : List α} (hs : x ∈ s) (t : List α) :
    cut x (s ++ t) = ((cut x s).1, some ((cut x s).2.getD [] ++ t)) := by
  induction s with
  | nil => exact absurd hs List.not_mem_nil
  | cons c s ih =>
      rw [List.cons_append, cut, cut]
      split
      · rfl
      · rename_i hc
        rw [ih ((List.mem_cons.mp hs).resolve_left (Ne.symm hc))]

theorem not_mem_cut (s : List α) : x ∉ (cut x s).1 := by
  induction s with
  | nil => exact List.not_mem_nil
  | cons c s ih =>
      rw [cut]
      split
      · exact List.not_mem_nil
      · rename_i hc
        exact List.not_mem_cons_of_ne_of_not_mem (Ne.symm hc) ih

theorem cut_fst_isPrefix (s : List α) : (cut x s).1 <+: s := by
  induction s with
  | nil => exact List.prefix_refl _
  | cons c s ih =>
      rw [cut]
      split
      · exact List.nil_prefix
      · exact (List.prefix_cons_inj c).mpr ih

theorem cut_head {s : List α} {c : α} (hs : s.head? = some c) (hc : c ≠ x) :
    (cut x s).1.head? = some c := by
  cases s with
  | nil => cases hs
  | cons d s =>
      obtain rfl := Option.some.inj hs
      rw [cut, if_neg hc]
      rfl

theorem mem_cut {s : List α} {c : α} (hc : c ∈ s) :
    c ∈ (cut x s).1 ∨ c = x ∨ c ∈ (cut x s).2.getD [] := by
  induction s with
  | nil => exact absurd hc List.not_mem_nil
  | cons d s ih =>
      rw [cut]
      split
      · rename_i hd
        rcases List.mem_cons.mp hc with rfl | hc
        · exact .inr (.inl hd)
        · exact .inr (.inr hc)
      · rcases List.mem_cons.mp hc with rfl | hc
        · exact .inl (List.mem_cons_self ..)
        · exact (ih hc).imp_left (List.mem_cons_of_mem _)

theorem mem_of_mem_cut_snd {s : List α} {c : α} (hc : c ∈ (cut x s).2.getD []) : c ∈ s := by
  induction s with
  | nil => exact absurd hc List.not_mem_nil
  | cons d s ih =>
      rw [cut] at hc
      split at hc
      · exact List.mem_cons_of_mem _ hc
      · exact List.mem_cons_of_mem _ (ih hc)

end Cut

end Lib
