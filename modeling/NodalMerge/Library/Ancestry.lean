import Mathlib.Logic.Relation
import Mathlib.Logic.Function.Basic

namespace Ancestry

open Function

variable {Id : Type} (parent : Id → Option Id)

def Edge (child above : Id) : Prop := parent child = some above

/-- The thing itself, or one it stems from. -/
def StemsFrom : Id → Id → Prop := Relation.ReflTransGen (Edge parent)

def Acyclic : Prop := ∀ id, ¬ Relation.TransGen (Edge parent) id id

variable [DecidableEq Id] {parent}

/-- A path over the new link reaches the link's source and goes on from its target. -/
theorem transGen_update
    (path : Relation.TransGen (Edge (update parent child (some above))) origin target) :
    Relation.TransGen (Edge parent) origin target ∨
      StemsFrom parent origin child ∧ StemsFrom parent above target := by
  have old {one next : Id} (edge : Edge (update parent child (some above)) one next) :
      one = child ∧ next = above ∨ Edge parent one next := by
    unfold Edge at edge
    by_cases same : one = child
    · rw [same, update_self] at edge
      exact .inl ⟨same, (Option.some.inj edge).symm⟩
    · rw [update_of_ne same] at edge
      exact .inr edge
  induction path with
  | single edge =>
    obtain ⟨rfl, rfl⟩ | edge := old edge
    · exact .inr ⟨.refl, .refl⟩
    · exact .inl (.single edge)
  | tail _ edge ih =>
    obtain ⟨rfl, rfl⟩ | edge := old edge
    · refine .inr ⟨?_, .refl⟩
      obtain path | through := ih
      · exact path.to_reflTransGen
      · exact through.1
    · obtain path | through := ih
      · exact .inl (path.tail edge)
      · exact .inr ⟨through.1, through.2.tail edge⟩

/-- A link that is new, or the same as before. -/
theorem acyclic_update_iff (acyclic : Acyclic parent)
    (free : ∀ other, parent child = some other → other = above) :
    Acyclic (update parent child (some above)) ↔ ¬ StemsFrom parent above child := by
  constructor
  · intro still back
    have kept : StemsFrom (update parent child (some above)) above child := by
      refine Relation.ReflTransGen.mono (fun one next edge => ?_) _ _ back
      unfold Edge at edge ⊢
      by_cases same : one = child
      · rw [same] at edge ⊢
        rw [update_self, free next edge]
      · rw [update_of_ne same, edge]
    exact still child (.head' (update_self ..) kept)
  · intro apart id cycle
    obtain path | ⟨down, up⟩ := transGen_update cycle
    · exact acyclic id path
    · exact apart (up.trans down)

end Ancestry
