import Mathlib.Data.List.Nodup
import Mathlib.Data.List.Perm.Subperm
import Mathlib.Tactic

namespace StackWalk

open List

variable {Node Output : Type} (children : Node → List Node) (emit : Node → List Output)

/-- Walk until the stack is empty, over at most so many nodes. -/
def walk : Nat → List Node → Option (List Output)
  | _, [] => some []
  | 0, _ :: _ => none
  | fuel + 1, node :: stack => (walk fuel (children node ++ stack)).map (emit node ++ ·)

/-- Every node comes up in one place at most, and all of them are in a list. -/
structure Forest (roots all : List Node) : Prop where
  rootsKnown : ∀ node ∈ roots, node ∈ all
  childrenKnown : ∀ parent, ∀ node ∈ children parent, node ∈ all
  rootsNodup : roots.Nodup
  childrenNodup : ∀ parent, (children parent).Nodup
  rootsApart : ∀ parent, ∀ node ∈ children parent, node ∉ roots
  oneParent : ∀ parent other, ∀ node ∈ children parent, node ∈ children other → parent = other

/-- The walk has visited some nodes and the others that it has seen are on the stack. -/
structure Reached (roots all visited stack : List Node) : Prop where
  known : ∀ node ∈ visited ++ stack, node ∈ all
  nodup : (visited ++ stack).Nodup
  origin : ∀ node ∈ visited ++ stack, node ∈ roots ∨ ∃ parent ∈ visited, node ∈ children parent

variable {children} {emit} {roots all visited stack : List Node} {node : Node}

section
variable (forest : Forest children roots all)
include forest

theorem Reached.start : Reached children roots all [] roots :=
  ⟨forest.rootsKnown, forest.rootsNodup, fun _ inside => .inl inside⟩

theorem Reached.pop (reached : Reached children roots all visited (node :: stack)) :
    Reached children roots all (visited ++ [node]) (children node ++ stack) := by
  have before : (visited ++ [node] ++ stack).Nodup := by
    simpa using reached.nodup
  have unvisited : node ∉ visited := fun inside =>
    (nodup_append.mp reached.nodup).2.2 node inside node mem_cons_self rfl
  -- A child that was seen before would have a second parent, or be a root.
  have fresh : ∀ child ∈ children node, child ∉ visited ++ [node] ++ stack := by
    intro child born seen
    have seenBefore : child ∈ visited ++ node :: stack := by simpa using seen
    obtain root | ⟨parent, inVisited, alsoBorn⟩ := reached.origin child seenBefore
    · exact forest.rootsApart node child born root
    · rw [forest.oneParent node parent child born alsoBorn] at unvisited
      exact unvisited inVisited
  have moved : (visited ++ [node] ++ (children node ++ stack)).Perm
      (children node ++ (visited ++ [node] ++ stack)) := by
    rw [← append_assoc, ← append_assoc]
    exact perm_append_comm.append_right stack
  refine ⟨fun other inside => ?_, moved.nodup_iff.mpr ?_, fun other inside => ?_⟩
  · obtain born | inside := mem_append.mp (moved.mem_iff.mp inside)
    · exact forest.childrenKnown node other born
    · exact reached.known other (by simpa using inside)
  · exact nodup_append'.mpr ⟨forest.childrenNodup node, before, fun child => fresh child⟩
  · obtain born | inside := mem_append.mp (moved.mem_iff.mp inside)
    · exact .inr ⟨node, by simp, born⟩
    · obtain root | ⟨parent, inVisited, born⟩ := reached.origin other (by simpa using inside)
      · exact .inl root
      · exact .inr ⟨parent, mem_append_left _ inVisited, born⟩

theorem Reached.isSome_walk (reached : Reached children roots all visited stack)
    (enough : all.length ≤ fuel + visited.length) : (walk children emit fuel stack).isSome := by
  induction fuel generalizing visited stack with
  | zero =>
    cases stack with
    | nil => rfl
    | cons node stack =>
      have few := (reached.nodup.subperm reached.known).length_le
      rw [length_append, length_cons] at few
      omega
  | succ fuel ih =>
    cases stack with
    | nil => rfl
    | cons node stack =>
      rw [walk, Option.isSome_map]
      apply ih (reached.pop forest)
      rw [length_append, length_singleton]
      omega

/-- A walk over a forest ends after as many nodes as there are. -/
theorem Forest.isSome_walk : (walk children emit all.length roots).isSome :=
  (Reached.start forest).isSome_walk forest (Nat.le_add_right _ _)

end

end StackWalk
