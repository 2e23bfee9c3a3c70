import Mathlib.Data.Fintype.Basic

/-!
# Wait-for relations

`waits t u` says that `t` cannot go on before `u` gives something up.  A set is stuck if each of
its members waits for a member.  When one party starts to wait, a stuck set appears exactly if the
party it waits for already waits, directly or through others, for it.
-/

set_option autoImplicit false

namespace KernelLabs.Lib

open Finset

section WaitFor
variable {T : Type} {waits waits' : T → T → Prop} {t u : T}

/-- A nonempty set in which everybody waits for a member. -/
def Stuck (waits : T → T → Prop) (set : Finset T) : Prop :=
  set.Nonempty ∧ ∀ t ∈ set, ∃ u ∈ set, waits t u

instance (waits : T → T → Prop) [∀ t u, Decidable (waits t u)] (set : Finset T) :
    Decidable (Stuck waits set) :=
  inferInstanceAs (Decidable (_ ∧ _))

def NoneStuck (waits : T → T → Prop) : Prop := ∀ set, ¬ Stuck waits set

theorem NoneStuck.mono (none : NoneStuck waits) (fewer : ∀ t u, waits' t u → waits t u) :
    NoneStuck waits' := by
  intro set stuck
  refine none set ⟨stuck.1, fun t member => ?_⟩
  obtain ⟨u, inside, edge⟩ := stuck.2 t member
  exact ⟨u, inside, fewer t u edge⟩

theorem NoneStuck.except (none : NoneStuck waits) (idle : ∀ u, ¬ waits' t u)
    (others : ∀ v u, v ≠ t → u ≠ t → waits' v u → waits v u) : NoneStuck waits' := by
  intro set stuck
  have absent : t ∉ set := fun member => by
    obtain ⟨u, _, edge⟩ := stuck.2 t member
    exact idle u edge
  refine none set ⟨stuck.1, fun v member => ?_⟩
  obtain ⟨u, inside, edge⟩ := stuck.2 v member
  exact ⟨u, inside, others v u (fun same => absent (same ▸ member))
    (fun same => absent (same ▸ inside)) edge⟩

/-- `t` starts to wait for `u`, who does not wait for `t` through anybody. -/
theorem NoneStuck.start (none : NoneStuck waits) (only : ∀ v, waits' t v → v = u)
    (others : ∀ v w, v ≠ t → waits' v w → waits v w)
    (apart : ¬ Relation.ReflTransGen waits u t) : NoneStuck waits' := by
  classical
  intro set stuck
  by_cases member : t ∈ set
  · -- From `u` on, the waits inside the set never lead to `t`, so they were there before.
    obtain ⟨v, inside, edge⟩ := stuck.2 t member
    rw [only v edge] at inside
    refine none (set.filter fun v => Relation.ReflTransGen waits u v)
      ⟨⟨u, mem_filter.mpr ⟨inside, .refl⟩⟩, fun v member => ?_⟩
    obtain ⟨inside, path⟩ := mem_filter.mp member
    obtain ⟨w, inside, edge⟩ := stuck.2 v inside
    have before : waits v w := others v w (fun same => apart (same ▸ path)) edge
    exact ⟨w, mem_filter.mpr ⟨inside, path.tail before⟩, before⟩
  · refine none set ⟨stuck.1, fun v inside => ?_⟩
    obtain ⟨w, within, edge⟩ := stuck.2 v inside
    exact ⟨w, within, others v w (fun same => member (same ▸ inside)) edge⟩

/-- `t` starts to wait for `u`, who waits for `t`: those in between are stuck. -/
theorem stuck_of_circle [Fintype T] (new : waits' t u) (kept : ∀ v w, waits v w → waits' v w)
    (circle : Relation.ReflTransGen waits u t) : ¬ NoneStuck waits' := by
  classical
  intro none
  refine none (univ.filter fun v =>
      Relation.ReflTransGen waits u v ∧ Relation.ReflTransGen waits v t) ⟨⟨t, ?_⟩, fun v member => ?_⟩
  · exact mem_filter.mpr ⟨mem_univ t, circle, .refl⟩
  · obtain ⟨_, before, after⟩ := mem_filter.mp member
    rcases Relation.ReflTransGen.cases_head after with rfl | ⟨w, edge, after⟩
    · exact ⟨u, mem_filter.mpr ⟨mem_univ u, .refl, circle⟩, new⟩
    · exact ⟨w, mem_filter.mpr ⟨mem_univ w, before.tail edge, after⟩, kept v w edge⟩

end WaitFor

end KernelLabs.Lib
