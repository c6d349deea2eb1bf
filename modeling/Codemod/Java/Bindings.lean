/-!
Values bound to names, the latest in front, each name once.
-/

namespace Codemod.Java

/-- Values bound to names. -/
abbrev Bindings (α : Type) := List (String × α)

namespace Bindings

variable {α : Type}

/-- The value of a name. -/
def get? (bindings : Bindings α) (name : String) : Option α :=
  (bindings.find? fun b => b.1 == name).map Prod.snd

/-- Binds a name to a value, in place of the one it had. -/
def put (bindings : Bindings α) (name : String) (value : α) : Bindings α :=
  (name, value) :: bindings.filter fun b => b.1 != name

theorem get?_put_self (bindings : Bindings α) (name : String) (value : α) :
    (bindings.put name value).get? name = some value := by
  simp [get?, put]

theorem get?_put_of_ne (bindings : Bindings α) {name other : String} (value : α)
    (h : other ≠ name) : (bindings.put name value).get? other = bindings.get? other := by
  simp only [get?, put]
  rw [List.find?_cons_of_neg (by simpa using Ne.symm h), List.find?_filter]
  congr 2
  funext b
  by_cases hb : b.1 = other <;> simp_all

end Bindings

end Codemod.Java
