import Formula.Prelude

/-! Names and their values, in nested frames. A name means what the innermost frame that binds it
says; binding a name changes one frame only. -/
namespace Formula

/-- The bindings of one scope; of two bindings of a name the first counts. -/
abbrev Bindings := List (String × Value)

/-- The innermost frame and the frames around it, from the inside out. -/
structure Env where
  frame : Bindings
  outer : List Bindings

namespace Env

def empty : Env := ⟨[], []⟩

def prelude : Env := ⟨Prelude.entries, []⟩

/-- A new frame inside. -/
def child (env : Env) : Env := ⟨[], env.frame :: env.outer⟩

/-- Without the innermost frame, unless it is the only one. -/
def parent? (env : Env) : Option Env :=
  match env.outer with
  | [] => none
  | frame :: outer => some ⟨frame, outer⟩

/-- Binds a name in the innermost frame. -/
def register (env : Env) (name : String) (value : Value) : Env :=
  { env with frame := (name, value) :: env.frame }

/-- The value of a name in the first of some frames that binds it. -/
def lookupIn (name : String) : List Bindings → Option Value
  | [] => none
  | frame :: frames => (frame.lookup name).or (lookupIn name frames)

def lookup? (env : Env) (name : String) : Option Value := lookupIn name (env.frame :: env.outer)

def contains (env : Env) (name : String) : Bool := (env.lookup? name).isSome

/-- The number of frames. -/
def depth (env : Env) : Nat := env.outer.length + 1

@[simp] theorem lookup?_child (env : Env) (name : String) :
    env.child.lookup? name = env.lookup? name := by
  simp [lookup?, child, lookupIn]

@[simp] theorem lookup?_register (env : Env) (x name : String) (value : Value) :
    (env.register x value).lookup? name = if name = x then some value else env.lookup? name := by
  by_cases same : name = x
  · simp [lookup?, register, lookupIn, same]
  · simp [lookup?, register, lookupIn, List.lookup_cons, same, beq_eq_false_iff_ne.2 same]

@[simp] theorem depth_child (env : Env) : env.child.depth = env.depth + 1 := by
  simp [depth, child]

end Env

end Formula
