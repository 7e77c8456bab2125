import Mathlib.Data.List.ProdSigma
import Phat.Deeds

/-! The array `arcs` while objects are resolved: what it holds, what leaves it alone, and when
`talloc_size` refuses a greater one. -/
namespace Phat

/-- The arcs and the lists of both ends are left alone. -/
structure ArcsAlone (lk lk' : Look) : Prop where
  arcs : lk'.arcs = lk.arcs
  arcTab : lk'.arcTab = lk.arcTab
  arcsMax : lk'.arcsMax = lk.arcsMax
  children : ∀ c, (lk'.classes c).children = (lk.classes c).children
  parents : ∀ c, (lk'.classes c).parents = (lk.classes c).parents

section Alone
variable {jf : Jdump} {fuel : Nat} {lk lk₁ lk' : Look} {c : ClassRef}

theorem ArcsAlone.refl (lk : Look) : ArcsAlone lk lk := ⟨rfl, rfl, rfl, fun _ => rfl, fun _ => rfl⟩

theorem ArcsAlone.trans (first : ArcsAlone lk lk₁) (second : ArcsAlone lk₁ lk') :
    ArcsAlone lk lk' where
  arcs := second.arcs.trans first.arcs
  arcTab := second.arcTab.trans first.arcTab
  arcsMax := second.arcsMax.trans first.arcsMax
  children c := (second.children c).trans (first.children c)
  parents c := (second.parents c).trans (first.parents c)

theorem ArcsAlone.setClass {look : ClassLook} (children : look.children = (lk.classes c).children)
    (parents : look.parents = (lk.classes c).parents) : ArcsAlone lk (lk.setClass c look) := by
  refine ⟨rfl, rfl, rfl, fun x => ?_, fun x => ?_⟩
  all_goals
    by_cases here : x = c
    · rw [here, Look.classes_setClass_self]
      assumption
    · rw [Look.classes_setClass_of_ne _ _ here]

theorem ArcsAlone.setObj (lk : Look) (o : ObjRef) (ho : ObjLook) : ArcsAlone lk (lk.setObj o ho) :=
  ⟨rfl, rfl, rfl, fun _ => rfl, fun _ => rfl⟩

theorem ArcsAlone.settled (lk : Look) (o : ObjRef) (c : ClassRef) (size : BitVec 64) :
    ArcsAlone lk (lk.settle o c size) :=
  (ArcsAlone.setObj lk o _).trans (.setClass rfl rfl)

/-- The end of a turn. -/
theorem ArcsAlone.settle (lk : Look) (o : ObjRef) (c : ClassRef) (size : BitVec 64)
    (event : DepthFirst.Event ObjRef Nat (BitVec 64)) :
    ArcsAlone lk ((lk.settle o c size).note event) :=
  (ArcsAlone.settled lk o c size).trans ⟨rfl, rfl, rfl, fun _ => rfl, fun _ => rfl⟩

theorem assignOwn_alone (jf : Jdump) (lk : Look) (ci cc : ClassRef) (fieldNo : Nat)
    (field : Finfo) (values : List Cell) :
    ArcsAlone lk
      (lk.setClass ci { assignOwn jf lk ci cc fieldNo field with values := values }) := by
  apply ArcsAlone.setClass
  all_goals
    simp only [assignOwn]
    split <;> rfl

theorem fillValues_alone {n fieldNo index size : Nat} {cc : ClassRef} {target : Int}
    (run : fillValues jf fuel c n cc fieldNo target index lk = .ok (size, lk')) :
    ArcsAlone lk lk' := by
  induction n generalizing cc fieldNo target index lk with
  | zero =>
    cases run
    exact .refl _
  | succ n ih =>
    rw [fillValues] at run
    split at run
    · cases run
    · split at run
      · cases run
      · simp only at run
        split at run
        · cases run
        · exact (assignOwn_alone jf lk c _ _ _ _).trans (ih run)

theorem layOut_alone {tfields : Int} (run : layOut jf fuel lk c tfields = .ok lk') :
    ArcsAlone lk lk' := by
  rw [layOut] at run
  split at run
  · split at run
    · cases run
    · simp only at run
      split at run
      · cases run
      · rename_i index lk₁ filled
        cases run
        have first : ArcsAlone lk (lk.setClass c
            { lk.classes c with values := List.replicate tfields.toNat ⟨none, 0⟩ }) :=
          .setClass rfl rfl
        exact (first.trans (fillValues_alone filled)).trans (.setClass rfl rfl)
  · cases run
    exact .refl _

theorem resolveClassNode_alone (run : resolveClassNode jf fuel lk c = .ok lk') :
    ArcsAlone lk lk' := by
  induction fuel generalizing c lk lk' with
  | zero => cases run
  | succ fuel ih =>
    rw [resolveClassNode] at run
    split at run
    · cases run
      exact .refl lk
    · split at run
      · cases run
      · rename_i tfields size
        have first : ArcsAlone lk (lk.setClass c { lk.classes c with tfields := tfields }) :=
          .setClass rfl rfl
        have entered : ArcsAlone lk ((lk.setClass c
            { lk.classes c with tfields := tfields }).setClass c (resolveStatics ((lk.setClass c
              { lk.classes c with tfields := tfields }).classes c) (jf.cinfo c).cstats.toNat)) :=
          first.trans (.setClass rfl rfl)
        have leaves : ∀ lk₁ lk₂, ArcsAlone lk lk₁ → layOut jf (fuel + 1) lk₁ c tfields = .ok lk₂ →
            ArcsAlone lk (lk₂.setClass c { lk₂.classes c with resolved := true }) :=
          fun lk₁ lk₂ before laid => (before.trans (layOut_alone laid)).trans (.setClass rfl rfl)
        cases found : jf.getSuperClass c with
        | none =>
          simp only [found] at run
          split at run
          · cases run
          · rename_i lk₂ laid
            cases run
            exact leaves _ _ entered laid
        | some super =>
          simp only [found] at run
          split at run
          · cases run
          · rename_i lk₁ above
            split at run
            · cases run
            · rename_i lk₂ laid
              cases run
              exact leaves _ _ (entered.trans (ih above)) laid

end Alone

/-- The classes that an arc leads from and to. -/
def Look.ends (lk : Look) (arc : Nat) : ClassRef × ClassRef :=
  ((lk.arcs.get arc).parent, (lk.arcs.get arc).child)

/-- The pairs of classes whose arcs are in the array. -/
def Look.crossings (lk : Look) : List (ClassRef × ClassRef) := lk.arcTab.map lk.ends

/-- An arc that has been made is in the list of the one class and leads to the other. -/
def Look.Joined (lk : Look) (e : ClassRef × ClassRef) : Prop :=
  ∃ arc < lk.arcs.next, arc ∈ (lk.classes e.1).children ∧ (lk.arcs.get arc).child = e.2

/-- How many arcs there may be in the greatest array that `talloc_size` grants. -/
def arcsLimit : Nat := 268435450

/-- The lists of the classes hold arcs that have been made, as when they start empty. -/
def Look.Listed (lk : Look) : Prop := ∀ c, ∀ arc ∈ (lk.classes c).children, arc < lk.arcs.next

/-- The array has one arc at most for two classes, which are different, and grows by ten. The lists
of the classes may hold more than that, namely what the memory held. -/
structure ArcsSound (lk : Look) : Prop where
  single : lk.crossings.Nodup
  made : ∀ arc ∈ lk.arcTab, arc < lk.arcs.next
  listed : ∀ arc ∈ lk.arcTab, arc ∈ (lk.classes (lk.arcs.get arc).parent).children
  crossing : ∀ arc ∈ lk.arcTab, (lk.arcs.get arc).parent ≠ (lk.arcs.get arc).child
  room : lk.arcTab.length ≤ lk.arcsMax
  tens : lk.arcsMax % 10 = 0
  granted : lk.arcsMax ≤ arcsLimit

/-- A reference of the object leads from the one class to the other. -/
def Jdump.Joins (jf : Jdump) (o : ObjRef) (e : ClassRef × ClassRef) : Prop :=
  jf.classOf o = some e.1 ∧ ∃ dref, jf.graph.Edge o dref ∧ jf.classOf dref = some e.2

/-- The array has no arc for the two classes, and a reference of one of these objects asks for
one. -/
def Jdump.Brings (jf : Jdump) (lk : Look) (source : ObjRef → Prop) (e : ClassRef × ClassRef) :
    Prop :=
  e.1 ≠ e.2 ∧ ¬ lk.Joined e ∧ ∃ o, source o ∧ jf.Joins o e

/-- The pairs of classes in the array and those that these objects bring are too many. -/
def Jdump.Crowded (jf : Jdump) (lk : Look) (source : ObjRef → Prop) : Prop :=
  ∃ pairs : List (ClassRef × ClassRef), pairs.Nodup ∧ arcsLimit < pairs.length ∧
    ∀ e ∈ pairs, e ∈ lk.crossings ∨ jf.Brings lk source e

/-- What the array has gained has been brought by these objects. -/
structure Brought (jf : Jdump) (source : ObjRef → Prop) (lk lk' : Look) : Prop where
  joined : ∀ e, lk.Joined e → lk'.Joined e
  crossings : ∀ e ∈ lk'.crossings, e ∈ lk.crossings ∨ jf.Brings lk source e

section Crowd
variable {jf : Jdump} {lk lk₁ lk' : Look} {p c : ClassRef} {count size : Int}
  {source source' : ObjRef → Prop} {e : ClassRef × ClassRef}

theorem ArcsSound.empty (arcTab : lk.arcTab = []) (arcsMax : lk.arcsMax = 0) : ArcsSound lk where
  single := by
    rw [Look.crossings, arcTab]
    exact List.nodup_nil
  made arc member := by
    rw [arcTab] at member
    cases member
  listed arc member := by
    rw [arcTab] at member
    cases member
  crossing arc member := by
    rw [arcTab] at member
    cases member
  room := by
    rw [arcTab]
    exact Nat.zero_le _
  tens := by
    rw [arcsMax]
  granted := by
    rw [arcsMax]
    exact Nat.zero_le _

theorem Brought.refl (lk : Look) : Brought jf source lk lk := ⟨fun _ => id, fun _ => .inl⟩

/-- What is brought after the array has gained was brought before. -/
theorem Brought.brings (brought : Brought jf source lk lk') (sub : ∀ o, source' o → source o)
    (brings : jf.Brings lk' source' e) : jf.Brings lk source e := by
  obtain ⟨differ, apart, o, inside, joins⟩ := brings
  exact ⟨differ, fun before => apart (brought.joined e before), o, sub o inside, joins⟩

theorem Brought.mono (brought : Brought jf source' lk lk') (sub : ∀ o, source' o → source o) :
    Brought jf source lk lk' where
  joined := brought.joined
  crossings e member := (brought.crossings e member).imp_right fun brings =>
    (Brought.refl lk).brings sub brings

theorem Brought.trans (first : Brought jf source lk lk₁) (second : Brought jf source lk₁ lk') :
    Brought jf source lk lk' where
  joined e before := second.joined e (first.joined e before)
  crossings e member := by
    rcases second.crossings e member with between | later
    · exact first.crossings e between
    · exact .inr (first.brings (fun _ => id) later)

theorem Brought.crowded (brought : Brought jf source lk lk') (sub : ∀ o, source' o → source o)
    (crowded : jf.Crowded lk' source') : jf.Crowded lk source := by
  obtain ⟨pairs, nodup, many, each⟩ := crowded
  refine ⟨pairs, nodup, many, fun e member => ?_⟩
  rcases each e member with here | later
  · exact brought.crossings e here
  · exact .inr (brought.brings sub later)

/-- Few objects have few pairs of classes. -/
theorem Jdump.not_crowded (arcTab : lk.arcTab = [])
    (few : jf.stored.length * jf.stored.length ≤ arcsLimit) : ¬ jf.Crowded lk source := by
  rintro ⟨pairs, nodup, many, each⟩
  let classes := jf.stored.filterMap jf.classOf
  have inside : pairs ⊆ classes ×ˢ classes := by
    intro e member
    rcases each e member with here | ⟨_, _, o, _, parentOf, dref, edge, childOf⟩
    · rw [Look.crossings, arcTab] at here
      cases here
    · have stored : o ∈ jf.stored := by
        by_contra outside
        rw [DepthFirst.Graph.Edge, Jdump.graph_acts_outside outside] at edge
        cases edge
      exact List.mem_product.mpr ⟨List.mem_filterMap.mpr ⟨o, stored, parentOf⟩,
        List.mem_filterMap.mpr ⟨dref, Jdump.edge_stored edge, childOf⟩⟩
  have length := (List.subperm_of_subset nodup inside).length_le
  have least : classes.length ≤ jf.stored.length := List.length_filterMap_le _ _
  have square := Nat.mul_le_mul least least
  rw [List.length_product] at length
  omega

/-- A step that changes an arc in other members than its ends. -/
structure ArcsKept (lk lk' : Look) : Prop where
  next : lk'.arcs.next = lk.arcs.next
  parent : ∀ arc, (lk'.arcs.get arc).parent = (lk.arcs.get arc).parent
  child : ∀ arc, (lk'.arcs.get arc).child = (lk.arcs.get arc).child
  arcTab : lk'.arcTab = lk.arcTab
  arcsMax : lk'.arcsMax = lk.arcsMax
  children : ∀ c, (lk'.classes c).children = (lk.classes c).children

theorem ArcsAlone.kept (alone : ArcsAlone lk lk') : ArcsKept lk lk' where
  next := by rw [alone.arcs]
  parent arc := by rw [alone.arcs]
  child arc := by rw [alone.arcs]
  arcTab := alone.arcTab
  arcsMax := alone.arcsMax
  children := alone.children

theorem ArcsKept.modify (lk : Look) (arc : Nat) {f : Arc → Arc}
    (parent : ∀ a, (f a).parent = a.parent) (child : ∀ a, (f a).child = a.child) :
    ArcsKept lk { lk with arcs := lk.arcs.modify arc f } where
  next := rfl
  parent := Store.get_modify_keep lk.arcs arc f Arc.parent parent
  child := Store.get_modify_keep lk.arcs arc f Arc.child child
  arcTab := rfl
  arcsMax := rfl
  children _ := rfl

theorem ArcsKept.crossings (kept : ArcsKept lk lk') : lk'.crossings = lk.crossings := by
  rw [Look.crossings, Look.crossings, kept.arcTab]
  apply List.map_congr_left
  intro arc _
  rw [Look.ends, Look.ends, kept.parent, kept.child]

theorem ArcsKept.sound (kept : ArcsKept lk lk') (sound : ArcsSound lk) : ArcsSound lk' where
  single := kept.crossings ▸ sound.single
  made arc member := by
    rw [kept.next]
    exact sound.made arc (kept.arcTab ▸ member)
  listed arc member := by
    rw [kept.parent, kept.children]
    exact sound.listed arc (kept.arcTab ▸ member)
  crossing arc member := by
    rw [kept.parent, kept.child]
    exact sound.crossing arc (kept.arcTab ▸ member)
  room := by
    rw [kept.arcTab, kept.arcsMax]
    exact sound.room
  tens := by
    rw [kept.arcsMax]
    exact sound.tens
  granted := by
    rw [kept.arcsMax]
    exact sound.granted

theorem ArcsKept.joined_iff (kept : ArcsKept lk lk') : lk'.Joined e ↔ lk.Joined e := by
  rw [Look.Joined, Look.Joined, kept.next, kept.children]
  simp only [kept.child]

theorem ArcsKept.listed (kept : ArcsKept lk lk') (listed : lk.Listed) : lk'.Listed := by
  intro c arc member
  rw [kept.next]
  rw [kept.children] at member
  exact listed c arc member

theorem ArcsKept.brought (kept : ArcsKept lk lk') : Brought jf source lk lk' where
  joined _ := kept.joined_iff.mpr
  crossings _ member := .inl (kept.crossings ▸ member)

section Put

theorem putArc_arcs (lk : Look) (p c : ClassRef) (count size : Int) :
    (putArc lk p c count size).arcs = lk.arcs.alloc fun _ => ⟨p, c, count, size⟩ := by
  simp only [putArc, Look.setClass]
  split <;> rfl

theorem putArc_arcTab (lk : Look) (p c : ClassRef) (count size : Int) :
    (putArc lk p c count size).arcTab =
      if p = c then lk.arcTab else lk.arcTab ++ [lk.arcs.next] := by
  simp only [putArc, Look.setClass]
  by_cases loop : p = c
  · rw [if_pos loop, if_neg (not_not_intro loop)]
  · rw [if_neg loop, if_pos loop]

theorem putArc_arcsMax (lk : Look) (p c : ClassRef) (count size : Int) :
    (putArc lk p c count size).arcsMax = if p = c then lk.arcsMax
      else if lk.arcTab.length = lk.arcsMax then lk.arcsMax + 10 else lk.arcsMax := by
  simp only [putArc, Look.setClass]
  by_cases loop : p = c
  · rw [if_pos loop, if_neg (not_not_intro loop)]
  · rw [if_neg loop, if_pos loop]

/-- The lists of a new arc. -/
theorem putArc_lists (lk : Look) (p c : ClassRef) (count size : Int) :
    (fun x => ((putArc lk p c count size).classes x).children) =
      Function.update (fun x => (lk.classes x).children) p
        (lk.arcs.next :: (lk.classes p).children) ∧
    (fun x => ((putArc lk p c count size).classes x).parents) =
      Function.update (fun x => (lk.classes x).parents) c
        (lk.arcs.next :: (lk.classes c).parents) := by
  have lists : ∀ lk : Look, ∀ arc : Nat,
      let lk₁ := lk.setClass p { lk.classes p with children := arc :: (lk.classes p).children }
      let lk₂ := lk₁.setClass c { lk₁.classes c with parents := arc :: (lk₁.classes c).parents }
      (fun x => (lk₂.classes x).children) =
        Function.update (fun x => (lk.classes x).children) p (arc :: (lk.classes p).children) ∧
      (fun x => (lk₂.classes x).parents) =
        Function.update (fun x => (lk.classes x).parents) c (arc :: (lk.classes c).parents) := by
    intro lk arc lk₁ lk₂
    have parents : ∀ x, (lk₁.classes x).parents = (lk.classes x).parents := by
      intro x
      by_cases here : x = p
      · rw [here, Look.classes_setClass_self]
      · rw [Look.classes_setClass_of_ne _ _ here]
    constructor
    · funext x
      have children : (lk₂.classes x).children = (lk₁.classes x).children := by
        by_cases here : x = c
        · rw [here, Look.classes_setClass_self]
        · rw [Look.classes_setClass_of_ne _ _ here]
      rw [children]
      by_cases here : x = p
      · rw [here, Look.classes_setClass_self, Function.update_self]
      · rw [Look.classes_setClass_of_ne _ _ here, Function.update_of_ne here]
    · funext x
      by_cases here : x = c
      · rw [here, Look.classes_setClass_self, Function.update_self, parents]
      · rw [Look.classes_setClass_of_ne _ _ here, Function.update_of_ne here, parents]
  rw [putArc]
  split
  · exact lists _ lk.arcs.next
  · exact lists _ lk.arcs.next

/-- Arcs made before stay in the lists of their parents. -/
theorem putArc_children {x : ClassRef} {arc : Nat} (member : arc ∈ (lk.classes x).children) :
    arc ∈ ((putArc lk p c count size).classes x).children := by
  rw [congrFun (putArc_lists lk p c count size).1 x]
  by_cases here : x = p
  · subst here
    rw [Function.update_self]
    exact List.mem_cons_of_mem _ member
  · rwa [Function.update_of_ne here]

theorem putArc_get {arc : Nat} (made : arc < lk.arcs.next) :
    (putArc lk p c count size).arcs.get arc = lk.arcs.get arc := by
  rw [putArc_arcs, Store.get_alloc_of_ne _ _ (Nat.ne_of_lt made)]

theorem putArc_get_new :
    (putArc lk p c count size).arcs.get lk.arcs.next = ⟨p, c, count, size⟩ := by
  rw [putArc_arcs, Store.get_alloc_self]

/-- `arc_lookup` finds what there is. -/
theorem arcLookup_joined (joined : lk.Joined (p, c)) : arcLookup lk p c ≠ none := by
  obtain ⟨arc, _, listed, child⟩ := joined
  rw [arcLookup]
  intro missing
  have other := List.find?_eq_none.mp missing arc listed
  exact other (decide_eq_true child)

theorem ArcsSound.unlisted (sound : ArcsSound lk) (missing : arcLookup lk p c = none) :
    (p, c) ∉ lk.crossings := by
  rw [Look.crossings, List.mem_map]
  rintro ⟨arc, member, same⟩
  rw [Look.ends, Prod.mk.injEq] at same
  obtain ⟨rfl, child⟩ := same
  exact arcLookup_joined ⟨arc, sound.made arc member, sound.listed arc member, child⟩ missing

theorem ArcsSound.crossings_put (sound : ArcsSound lk) :
    (putArc lk p c count size).crossings =
      if p = c then lk.crossings else lk.crossings ++ [(p, c)] := by
  have old : lk.arcTab.map (putArc lk p c count size).ends = lk.crossings := by
    apply List.map_congr_left
    intro arc member
    rw [Look.ends, Look.ends, putArc_get (sound.made arc member)]
  rw [Look.crossings, putArc_arcTab]
  split
  · exact old
  · rw [List.map_append, old, List.map_singleton, Look.ends, putArc_get_new]

theorem ArcsSound.put (sound : ArcsSound lk) (missing : arcLookup lk p c = none)
    (granted : ¬ (p ≠ c ∧ lk.arcTab.length = lk.arcsMax ∧ maxCount 1 ≤ 8 * (lk.arcsMax + 10)))
    (count size : Int) : ArcsSound (putArc lk p c count size) := by
  have members : ∀ arc ∈ (putArc lk p c count size).arcTab,
      arc ∈ lk.arcTab ∨ p ≠ c ∧ arc = lk.arcs.next := by
    intro arc member
    rw [putArc_arcTab] at member
    split at member
    · exact .inl member
    · rename_i apart
      rw [List.mem_append, List.mem_singleton] at member
      exact member.imp_right fun new => ⟨apart, new⟩
  constructor
  · rw [sound.crossings_put]
    split
    · exact sound.single
    · rw [List.nodup_append_comm, List.singleton_append, List.nodup_cons]
      exact ⟨sound.unlisted missing, sound.single⟩
  · intro arc member
    rw [putArc_arcs, Store.next_alloc]
    rcases members arc member with old | ⟨_, rfl⟩
    · exact Nat.lt_succ_of_lt (sound.made arc old)
    · exact Nat.lt_succ_self _
  · intro arc member
    rcases members arc member with old | ⟨_, rfl⟩
    · rw [putArc_get (sound.made arc old)]
      exact putArc_children (sound.listed arc old)
    · rw [putArc_get_new, congrFun (putArc_lists lk p c count size).1 p, Function.update_self]
      exact List.mem_cons_self
  · intro arc member
    rcases members arc member with old | ⟨apart, rfl⟩
    · rw [putArc_get (sound.made arc old)]
      exact sound.crossing arc old
    · rw [putArc_get_new]
      exact apart
  · have room := sound.room
    rw [putArc_arcTab, putArc_arcsMax]
    split
    · exact room
    · rw [List.length_append, List.length_singleton]
      split <;> omega
  · have tens := sound.tens
    rw [putArc_arcsMax]
    split
    · exact tens
    · split <;> omega
  · have tens := sound.tens
    have most := sound.granted
    have limit : maxCount 1 = 0x7FFFFFFF := rfl
    rw [arcsLimit] at most ⊢
    rw [putArc_arcsMax]
    split
    · exact most
    · rename_i apart
      split
      · rename_i full
        have small : ¬ maxCount 1 ≤ 8 * (lk.arcsMax + 10) := fun large =>
          granted ⟨apart, full, large⟩
        omega
      · exact most

theorem putArc_joined (joined : lk.Joined e) : (putArc lk p c count size).Joined e := by
  obtain ⟨arc, made, listed, child⟩ := joined
  refine ⟨arc, ?_, putArc_children listed, ?_⟩
  · rw [putArc_arcs, Store.next_alloc]
    exact Nat.lt_succ_of_lt made
  · rw [putArc_get made]
    exact child

theorem putArc_joined_new : (putArc lk p c count size).Joined (p, c) := by
  refine ⟨lk.arcs.next, ?_, ?_, ?_⟩
  · rw [putArc_arcs, Store.next_alloc]
    exact Nat.lt_succ_self _
  · rw [congrFun (putArc_lists lk p c count size).1 p, Function.update_self]
    exact List.mem_cons_self
  · rw [putArc_get_new]

theorem Look.Listed.put (listed : lk.Listed) : (putArc lk p c count size).Listed := by
  intro x arc member
  rw [putArc_arcs, Store.next_alloc]
  rw [congrFun (putArc_lists lk p c count size).1 x] at member
  by_cases here : x = p
  · subst here
    rw [Function.update_self] at member
    rcases List.mem_cons.mp member with rfl | old
    · exact Nat.lt_succ_self _
    · exact Nat.lt_succ_of_lt (listed x arc old)
  · rw [Function.update_of_ne here] at member
    exact Nat.lt_succ_of_lt (listed x arc member)

/-- No other classes are joined than were. -/
theorem Look.Listed.joined_put (listed : lk.Listed)
    (joined : (putArc lk p c count size).Joined e) : lk.Joined e ∨ e = (p, c) := by
  obtain ⟨arc, made, member, child⟩ := joined
  rw [congrFun (putArc_lists lk p c count size).1 e.1] at member
  by_cases here : e.1 = p
  · subst here
    rw [Function.update_self] at member
    rcases List.mem_cons.mp member with rfl | old
    · rw [putArc_get_new] at child
      exact .inr (Prod.ext rfl child.symm)
    · rw [putArc_get (listed e.1 arc old)] at child
      exact .inl ⟨arc, listed e.1 arc old, old, child⟩
  · rw [Function.update_of_ne here] at member
    rw [putArc_get (listed e.1 arc member)] at child
    exact .inl ⟨arc, listed e.1 arc member, member, child⟩

/-- What a new arc adds is what a reference brings. -/
theorem ArcsSound.brought_put (sound : ArcsSound lk) (missing : arcLookup lk p c = none)
    {o : ObjRef} (inside : source o) (joins : jf.Joins o (p, c)) :
    Brought jf source lk (putArc lk p c count size) where
  joined _ := putArc_joined
  crossings e member := by
    rw [sound.crossings_put] at member
    split at member
    · exact .inl member
    · rename_i apart
      rw [List.mem_append, List.mem_singleton] at member
      rcases member with old | rfl
      · exact .inl old
      · exact .inr ⟨apart, fun joined => arcLookup_joined joined missing, o, inside, joins⟩

end Put

/-- `talloc_size` refuses the array only where there are too many pairs of classes. -/
theorem newArc_grants (sound : ArcsSound lk) (missing : arcLookup lk p c = none)
    {o : ObjRef} (inside : source o) (joins : jf.Joins o (p, c)) (count size : Int) :
    newArc lk p c count size = .ok (putArc lk p c count size) ∧
        ArcsSound (putArc lk p c count size) ∨
      newArc lk p c count size = .error .nomem ∧ jf.Crowded lk source := by
  rw [newArc]
  split
  · rename_i refused
    obtain ⟨apart, full, large⟩ := refused
    refine .inr ⟨rfl, lk.crossings ++ [(p, c)], ?_, ?_, fun e member => ?_⟩
    · rw [List.nodup_append_comm, List.singleton_append, List.nodup_cons]
      exact ⟨sound.unlisted missing, sound.single⟩
    · have tens := sound.tens
      have limit : maxCount 1 = 0x7FFFFFFF := rfl
      rw [List.length_append, List.length_singleton, Look.crossings, List.length_map, arcsLimit]
      omega
    · rw [List.mem_append, List.mem_singleton] at member
      rcases member with old | rfl
      · exact .inl old
      · exact .inr ⟨apart, fun joined => arcLookup_joined joined missing, o, inside, joins⟩
  · rename_i granted
    exact .inl ⟨rfl, sound.put missing granted count size⟩

end Crowd

/-- Classes are joined by the references followed since, and the array has the arc where they were
not joined before. -/
structure Connects (jf : Jdump) (lk₀ lk : Look) (past : Multiset Deed) : Prop where
  sound : ArcsSound lk
  listed : lk.Listed
  crossings : ∀ e ∈ lk₀.crossings, e ∈ lk.crossings
  crossing : ∀ e, e.1 ≠ e.2 → lk.Joined e → lk₀.Joined e ∨ e ∈ lk.crossings
  linked : ∀ o dref p c, .link o dref ∈ past → jf.classOf o = some p → jf.classOf dref = some c →
    lk.Joined (p, c)

section Connects
variable {jf : Jdump} {lk₀ lk lk' : Look} {past past' : Multiset Deed} {p c : ClassRef}

theorem Connects.start (sound : ArcsSound lk) (listed : lk.Listed) : Connects jf lk lk 0 where
  sound := sound
  listed := listed
  crossings _ := id
  crossing _ _ := .inl
  linked _ _ _ _ member := absurd member (Multiset.notMem_zero _)

/-- A step that makes no arc. -/
theorem Connects.keep (connects : Connects jf lk₀ lk past) (kept : ArcsKept lk lk')
    (links : ∀ o dref, .link o dref ∈ past' → .link o dref ∈ past ∨
      ∀ p c, jf.classOf o = some p → jf.classOf dref = some c → lk.Joined (p, c)) :
    Connects jf lk₀ lk' past' where
  sound := kept.sound connects.sound
  listed := kept.listed connects.listed
  crossings e member := kept.crossings ▸ connects.crossings e member
  crossing e differ joined := by
    rw [kept.crossings]
    exact connects.crossing e differ (kept.joined_iff.mp joined)
  linked o dref p c member parentOf childOf := by
    rcases links o dref member with before | joined
    · exact kept.joined_iff.mpr (connects.linked o dref p c before parentOf childOf)
    · exact kept.joined_iff.mpr (joined p c parentOf childOf)

theorem Connects.put (connects : Connects jf lk₀ lk past) {o dref : ObjRef}
    (parentOf : jf.classOf o = some p) (childOf : jf.classOf dref = some c) {count size : Int}
    (sound : ArcsSound (putArc lk p c count size)) :
    Connects jf lk₀ (putArc lk p c count size) (past + {.link o dref}) where
  sound := sound
  listed := connects.listed.put
  crossings e member := by
    rw [connects.sound.crossings_put]
    split
    · exact connects.crossings e member
    · exact List.mem_append_left _ (connects.crossings e member)
  crossing e differ joined := by
    rw [connects.sound.crossings_put]
    rcases connects.listed.joined_put joined with before | rfl
    · refine (connects.crossing e differ before).imp_right fun member => ?_
      split
      · exact member
      · exact List.mem_append_left _ member
    · rw [if_neg differ]
      exact .inr (List.mem_append_right _ (List.mem_singleton_self _))
  linked o' dref' p' c' member parentOf' childOf' := by
    rcases Multiset.mem_add.mp member with before | new
    · exact putArc_joined (connects.linked o' dref' p' c' before parentOf' childOf')
    · obtain ⟨rfl, rfl⟩ := Deed.link.inj (Multiset.mem_singleton.mp new)
      rw [parentOf] at parentOf'
      rw [childOf] at childOf'
      cases parentOf'
      cases childOf'
      exact putArc_joined_new

/-- No more arcs are in the array than `talloc_size` grants. -/
theorem Connects.not_crowded (connects : Connects jf lk₀ lk past) {source : ObjRef → Prop}
    (all : ∀ o dref, source o → jf.graph.Edge o dref → .link o dref ∈ past) :
    ¬ jf.Crowded lk₀ source := by
  rintro ⟨pairs, nodup, many, each⟩
  have inside : pairs ⊆ lk.crossings := by
    rintro ⟨p, c⟩ member
    rcases each _ member with before | ⟨differ, apart, o, linking, parentOf, dref, edge, childOf⟩
    · exact connects.crossings _ before
    · refine (connects.crossing _ differ ?_).resolve_left apart
      exact connects.linked o dref p c (all o dref linking edge) parentOf childOf
  have length := (List.subperm_of_subset nodup inside).length_le
  have room := connects.sound.room
  have granted := connects.sound.granted
  rw [Look.crossings, List.length_map] at length
  omega

end Connects

end Phat
