import Mathlib.Data.Nat.Notation

/-!
# Lexical resolution of paths

A path is walked component by component without looking at any file system: a name goes down, the
parent goes up, and a component may also stay. A place is where such a walk stands.
-/

namespace LexicalPath

inductive Move (ν : Type*)
  | stay
  | parent
  | name (n : ν)

/-- Where a walk stands: the names that lead there, the innermost first, from the top of the tree or
from `up` levels above the start. -/
structure Place (ν : Type*) where
  rooted : Bool
  up : ℕ
  names : List ν

namespace Place

variable {ν : Type*}

def move (p : Place ν) : Move ν → Place ν
  | .stay => p
  | .parent =>
    match p.names with
    | [] => if p.rooted then p else { p with up := p.up + 1 }
    | _ :: names => { p with names }
  | .name n => { p with names := n :: p.names }

def walk (p : Place ν) (moves : List (Move ν)) : Place ν := moves.foldl move p

structure Inside (root p : Place ν) : Prop where
  rooted : p.rooted = root.rooted
  up : p.up = root.up
  names : root.names <:+ p.names

theorem walk_append (p : Place ν) (xs ys : List (Move ν)) :
    p.walk (xs ++ ys) = (p.walk xs).walk ys := List.foldl_append

theorem walk_names (p : Place ν) (ns : List ν) :
    p.walk (ns.map .name) = { p with names := ns.reverse ++ p.names } := by
  induction ns generalizing p with
  | nil => rfl
  | cons n ns ih =>
    show (p.move (.name n)).walk (ns.map .name) = _
    rw [ih, List.reverse_cons, List.append_assoc]
    rfl

theorem inside_walk_names (p : Place ν) (ns : List ν) : p.Inside (p.walk (ns.map .name)) := by
  rw [walk_names]
  exact ⟨rfl, rfl, List.suffix_append _ _⟩

end Place

end LexicalPath
