import Mathlib.Algebra.BigOperators.Group.Finset.Basic
import Mathlib.Algebra.Order.BigOperators.Group.List
import Mathlib.Data.Multiset.OrderedMonoid
import Phat.HeapGraph

/-! What the traversal of the heap does to the records of classes: it follows references,
each of which `arc_add` is told of, and assigns sizes. An invariant of the class records is
kept along a traversal if these two steps and the resolution of a class keep it. -/
namespace Phat
open DepthFirst (Act entered targets)

inductive Deed where
  | link (o dref : ObjRef)
  | settle (o : ObjRef)

/-- Following references of an object. -/
def links (o : ObjRef) (acts : List (Act ObjRef Nat)) : Multiset Deed :=
  ↑((targets acts).map (Deed.link o))

open Classical in
/-- What the turn of an object consists of. -/
noncomputable def Jdump.deeds (jf : Jdump) (o : ObjRef) : Multiset Deed :=
  links o (jf.objectActs o) + if jf.Empty o then 0 else {.settle o}

/-- The turns of all objects that a trace enters. -/
noncomputable def Jdump.deedsOf (jf : Jdump)
    (trace : List (DepthFirst.Event ObjRef Nat (BitVec 64))) : Multiset Deed :=
  ((entered trace).map jf.deeds).sum

/-- An invariant of the class records that takes account of what has been done. -/
abbrev Account := Look → Multiset Deed → Prop

/-- A part of the run keeps the invariant, with what it does. -/
def Carries (I : Account) (lk lk' : Look) (deeds : Multiset Deed) : Prop :=
  ∀ past, I lk past → I lk' (past + deeds)

/-- The steps of a traversal keep the invariant. -/
structure Watched (jf : Jdump) (I : Account) : Prop where
  same : ∀ lk lk' past, lk'.classes = lk.classes → lk'.arcs = lk.arcs → lk'.arcTab = lk.arcTab →
    lk'.arcsMax = lk.arcsMax → I lk past → I lk' past
  link : ∀ lk lk' o dref past, o ∈ jf.stored → dref ∈ jf.stored →
    arcAdd jf lk o dref 1 = .ok lk' → I lk past → I lk' (past + {.link o dref})
  settle : ∀ lk o c past, o ∈ jf.stored → ¬ jf.Empty o → jf.classOf o = some c →
    (lk.classes c).resolved = true → I lk past →
      I (lk.settle o c (jf.ownSize o)) (past + {.settle o})
  resolve : ∀ lk lk' c cs fuel past, resolveClassNode jf fuel lk c = .ok lk' → jf.Chain c cs →
    Resolves jf lk lk' cs → I lk past → I lk' past

/-- Nothing is asked. -/
theorem Watched.trivial (jf : Jdump) : Watched jf fun _ _ => True :=
  ⟨fun _ _ _ _ _ _ _ _ => ⟨⟩, fun _ _ _ _ _ _ _ _ _ => ⟨⟩, fun _ _ _ _ _ _ _ _ _ => ⟨⟩,
    fun _ _ _ _ _ _ _ _ _ _ => ⟨⟩⟩

section Deeds
variable {jf : Jdump} {I : Account} {lk lk₁ lk' : Look} {o dref : ObjRef}
  {deeds deeds' : Multiset Deed} {acts acts' : List (Act ObjRef Nat)}

@[simp] theorem links_nil (o : ObjRef) : links o [] = 0 := rfl

@[simp] theorem links_touch (o : ObjRef) (pos : Nat) (acts : List (Act ObjRef Nat)) :
    links o (.touch pos :: acts) = links o acts := rfl

@[simp] theorem links_append (o : ObjRef) (acts acts' : List (Act ObjRef Nat)) :
    links o (acts ++ acts') = links o acts + links o acts' := by
  simp [links]

theorem links_follow (o dref : ObjRef) : links o [.follow dref] = {.link o dref} := rfl

@[simp] theorem Jdump.deedsOf_nil (jf : Jdump) : jf.deedsOf [] = 0 := rfl

@[simp] theorem Jdump.deedsOf_touch (jf : Jdump) (pos : Nat)
    (trace : List (DepthFirst.Event ObjRef Nat (BitVec 64))) :
    jf.deedsOf (.touch pos :: trace) = jf.deedsOf trace := rfl

@[simp] theorem Jdump.deedsOf_ret (jf : Jdump) (o : ObjRef) (a : BitVec 64)
    (trace : List (DepthFirst.Event ObjRef Nat (BitVec 64))) :
    jf.deedsOf (.ret o a :: trace) = jf.deedsOf trace := rfl

@[simp] theorem Jdump.deedsOf_enter (jf : Jdump) (o : ObjRef)
    (trace : List (DepthFirst.Event ObjRef Nat (BitVec 64))) :
    jf.deedsOf (.enter o :: trace) = jf.deeds o + jf.deedsOf trace := by
  rw [deedsOf, DepthFirst.entered_enter, List.map_cons, List.sum_cons]
  rfl

@[simp] theorem Jdump.deedsOf_append (jf : Jdump)
    (trace trace' : List (DepthFirst.Event ObjRef Nat (BitVec 64))) :
    jf.deedsOf (trace ++ trace') = jf.deedsOf trace + jf.deedsOf trace' := by
  rw [deedsOf, DepthFirst.entered_append, List.map_append, List.sum_append]
  rfl

/-- No object has two turns. -/
theorem Jdump.deedsOf_eq_sum (jf : Jdump)
    {trace : List (DepthFirst.Event ObjRef Nat (BitVec 64))} {objects : Finset ObjRef}
    (distinct : (entered trace).Nodup) (all : ∀ o, o ∈ objects ↔ o ∈ entered trace) :
    jf.deedsOf trace = ∑ o ∈ objects, jf.deeds o := by
  have same : objects = (entered trace).toFinset := by
    ext o
    rw [all, List.mem_toFinset]
  rw [deedsOf, same, List.sum_toFinset _ distinct]

theorem Carries.refl (I : Account) (lk : Look) : Carries I lk lk 0 := by
  intro past holds
  rw [add_zero]
  exact holds

theorem Carries.trans (first : Carries I lk lk₁ deeds) (second : Carries I lk₁ lk' deeds') :
    Carries I lk lk' (deeds + deeds') := by
  intro past holds
  rw [← add_assoc]
  exact second _ (first _ holds)

theorem Carries.join {trace trace' : List (DepthFirst.Event ObjRef Nat (BitVec 64))}
    (first : Carries I lk lk₁ (jf.deedsOf trace + links o acts))
    (second : Carries I lk₁ lk' (jf.deedsOf trace' + links o acts')) :
    Carries I lk lk' (jf.deedsOf (trace ++ trace') + links o (acts ++ acts')) := by
  have both := first.trans second
  rw [add_add_add_comm] at both
  rw [Jdump.deedsOf_append, links_append]
  exact both

/-- A step that leaves the class records and arcs alone. -/
theorem Watched.still (watched : Watched jf I) (classes : lk'.classes = lk.classes)
    (arcs : lk'.arcs = lk.arcs) (arcTab : lk'.arcTab = lk.arcTab)
    (arcsMax : lk'.arcsMax = lk.arcsMax) : Carries I lk lk' 0 := by
  intro past holds
  rw [add_zero]
  exact watched.same lk lk' past classes arcs arcTab arcsMax holds

theorem Jdump.deeds_empty (empty : jf.Empty o) : jf.deeds o = links o (jf.objectActs o) := by
  rw [deeds, if_pos empty, add_zero]

theorem Jdump.deeds_busy (busy : ¬ jf.Empty o) :
    jf.deeds o = links o (jf.objectActs o) + {.settle o} := by
  rw [deeds, if_neg busy]

/-- The end of a turn: the sizes are assigned. -/
theorem Carries.settle {trace : List (DepthFirst.Event ObjRef Nat (BitVec 64))} {c : ClassRef}
    (watched : Watched jf I) (stored : o ∈ jf.stored) (busy : ¬ jf.Empty o)
    (classOf : jf.classOf o = some c) (laid : (lk₁.classes c).resolved = true)
    (carried : Carries I lk lk₁ (jf.deedsOf trace + links o (jf.objectActs o)))
    (event : DepthFirst.Event ObjRef Nat (BitVec 64)) :
    Carries I lk ((lk₁.settle o c (jf.ownSize o)).note event) (jf.deedsOf trace + jf.deeds o) := by
  intro past holds
  rw [jf.deeds_busy busy, ← add_assoc, ← add_assoc]
  refine watched.same (lk₁.settle o c (jf.ownSize o)) _ _ rfl rfl rfl rfl ?_
  apply watched.settle lk₁ o c _ stored busy classOf laid
  rw [add_assoc]
  exact carried past holds

end Deeds

end Phat
