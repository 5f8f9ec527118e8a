import Stencil.Style.Read

/-!
# Characters outside strings

A string of a stylesheet begins and ends with the same mark, and a backslash inside it takes the next
character with it.  Each character of a text is listed with whether it stands outside strings
(`placed`); the mark that begins a string still does.
-/

namespace Stencil.Style

/-- Whether a text goes on outside strings. -/
def Quoting.isNone : Quoting → Bool
  | .none => true
  | .inside _ => false
  | .escaped _ => false

/-- Each character of a text, and whether it stands outside strings. -/
def placed (q : Quoting) : List Char → List (Char × Bool)
  | [] => []
  | c :: rest => (c, q.isNone) :: placed (q.step c) rest

theorem map_placed (q : Quoting) (cs : List Char) : (placed q cs).map Prod.fst = cs := by
  induction cs generalizing q with
  | nil => rfl
  | cons c rest ih => rw [placed, List.map_cons, ih]

theorem placed_append (q : Quoting) (cs more : List Char) :
    placed q (cs ++ more) = placed q cs ++ placed (cs.foldl Quoting.step q) more := by
  induction cs generalizing q with
  | nil => rfl
  | cons c rest ih => rw [List.cons_append, placed, placed, ih, List.cons_append, List.foldl_cons]

theorem mem_of_mem_placed {q : Quoting} {cs : List Char} {x : Char × Bool} (h : x ∈ placed q cs) :
    x.1 ∈ cs := by
  rw [← map_placed q cs]
  exact List.mem_map_of_mem h

theorem exists_mem_placed {q : Quoting} {cs : List Char} {c : Char} (h : c ∈ cs) :
    (c, true) ∈ placed q cs ∨ (c, false) ∈ placed q cs := by
  rw [← map_placed q cs] at h
  obtain ⟨⟨d, outside⟩, hmem, rfl⟩ := List.mem_map.mp h
  cases outside with
  | true => exact .inl hmem
  | false => exact .inr hmem

theorem Quoting.step_of_ne {c : Char} (h : c ≠ '"' ∧ c ≠ '\'') :
    Quoting.none.step c = .none := by
  simp [step, h]

theorem foldl_step_of_unquoted {cs : List Char} (h : ∀ c ∈ cs, c ≠ '"' ∧ c ≠ '\'') :
    cs.foldl Quoting.step .none = .none := by
  induction cs with
  | nil => rfl
  | cons c rest ih =>
      obtain ⟨hc, hrest⟩ := List.forall_mem_cons.mp h
      rw [List.foldl_cons, Quoting.step_of_ne hc, ih hrest]

end Stencil.Style
