import Phat.Propagation

/-! Cycles of more than one class. `mg_postvisit` numbers no class but the one it is called for, so
no number is given twice, and the members of a cycle do not share one. -/
namespace Phat.MapGraph
open Links Topological Relation

/-- What the numbering is for: the classes reached have numbers, a cycle is one list of members with
one head and one number, and arcs between different cycles lead to smaller numbers. -/
structure CyclesFound (g : MapGraph) (roots : List ClassRef) (g' : MapGraph) : Prop where
  positive : ∀ c, Reached g.ArcTo roots c → 0 < (g'.classes c).topOrder
  heads : ∀ c d, Reached g.ArcTo roots c → Reached g.ArcTo roots d →
    ((g'.classes c).cycHead = (g'.classes d).cycHead ↔ Mutual g.ArcTo c d)
  members : ∀ c d, Reached g.ArcTo roots c → Mutual g.ArcTo c d →
    (∃ l, Linked (fun c => (g'.classes c).cycNext) (some (g'.classes c).cycHead) l ∧ d ∈ l) ∧
      (g'.classes c).topOrder = (g'.classes d).topOrder
  descending : ∀ c d, Reached g.ArcTo roots c → g.ArcTo c d → ¬ Mutual g.ArcTo c d →
    (g'.classes d).topOrder < (g'.classes c).topOrder

/-- No number is greater than the counter, and none is given twice. -/
structure Counted (nodes : Finset ClassRef) (g : MapGraph) : Prop where
  counter : 0 ≤ g.dfnCounter
  bound : ∀ c ∈ nodes, (g.classes c).topOrder ≤ g.dfnCounter
  distinct : ∀ c ∈ nodes, ∀ d ∈ nodes, 0 < (g.classes c).topOrder →
    (g.classes c).topOrder = (g.classes d).topOrder → c = d

variable {g g' : MapGraph} {nodes : Finset ClassRef} {roots : List ClassRef} {c : ClassRef}
  {fuel : Nat}

/-- The numbers and the counter are the same. -/
structure SameNumbers (g g' : MapGraph) : Prop where
  counter : g'.dfnCounter = g.dfnCounter
  topOrder : ∀ c, (g'.classes c).topOrder = (g.classes c).topOrder

theorem SameNumbers.refl (g : MapGraph) : g.SameNumbers g := ⟨rfl, fun _ => rfl⟩

theorem SameNumbers.trans {g'' : MapGraph} (same : g.SameNumbers g')
    (same' : g'.SameNumbers g'') : g.SameNumbers g'' :=
  ⟨same'.counter.trans same.counter, fun c => (same'.topOrder c).trans (same.topOrder c)⟩

theorem SameNumbers.modify (g : MapGraph) (c : ClassRef) (f : MapClass → MapClass)
    (kept : ∀ ci, (f ci).topOrder = ci.topOrder) : g.SameNumbers (g.modifyClass c f) := by
  refine ⟨rfl, fun x => ?_⟩
  by_cases here : x = c
  · subst here
    simp [modifyClass, kept]
  · simp [modifyClass, here]

theorem SameNumbers.counted (same : g.SameNumbers g') (counted : g.Counted nodes) :
    g'.Counted nodes := by
  obtain ⟨counter, bound, distinct⟩ := counted
  refine ⟨?_, fun c member => ?_, fun c memberC d memberD => ?_⟩
  · rw [same.counter]
    exact counter
  · rw [same.counter, same.topOrder]
    exact bound c member
  · rw [same.topOrder, same.topOrder]
    exact distinct c memberC d memberD

theorem captureMembers_same {head tail tail' : ClassRef}
    (run : captureMembers head fuel tail g = some (tail', g')) : g.SameNumbers g' := by
  induction fuel generalizing tail g with
  | zero => cases run
  | succ fuel ih =>
    rw [captureMembers] at run
    split at run
    · cases run
      exact .refl _
    · refine SameNumbers.trans ?_ (ih run)
      exact .modify g _ _ fun _ => rfl

theorem capture_same {head tail : ClassRef} {left index : Nat}
    (run : capture fuel head left index tail g = some g') : g.SameNumbers g' := by
  induction left generalizing index tail g with
  | zero =>
    cases run
    exact .refl _
  | succ left ih =>
    rw [capture] at run
    simp only at run
    split at run
    · split at run
      · cases run
      · rename_i members
        refine SameNumbers.trans ?_ ((captureMembers_same members).trans (ih run))
        refine SameNumbers.trans ?_ (.modify _ _ _ fun _ => rfl)
        exact .modify g _ _ fun _ => rfl
    · split at run
      · cases run
        exact ⟨rfl, fun _ => rfl⟩
      · exact ih run

/-- `find_cycle` gives no numbers. -/
theorem findCycle_same (run : findCycle fuel c g = some g') : g.SameNumbers g' := by
  rw [findCycle] at run
  simp only at run
  split at run
  · cases run
    exact ⟨rfl, fun _ => rfl⟩
  · split at run
    · split at run
      · cases run
      · exact capture_same run
    · cases run
      exact .refl g

/-- The loop of `mg_postvisit` assigns to one class only. -/
theorem numberMembers_only {ho : Option ClassRef} (run : numberMembers c fuel ho g = some g') :
    g'.dfnCounter = g.dfnCounter ∧ (∀ x, x ≠ c → g'.classes x = g.classes x) ∧
      ((g'.classes c).topOrder = (g.classes c).topOrder ∨
        (g'.classes c).topOrder = g.dfnCounter) := by
  induction fuel generalizing ho g with
  | zero => cases run
  | succ fuel ih =>
    cases ho with
    | none =>
      cases run
      exact ⟨rfl, fun _ _ => rfl, .inl rfl⟩
    | some h =>
      obtain ⟨counter, others, own⟩ := ih run
      refine ⟨counter, fun x other => ?_, .inr ?_⟩
      · rw [others x other]
        simp [modifyClass, other]
      · rcases own with same | number
        · rw [same]
          simp [modifyClass]
        · exact number

theorem Counted.previsit (counted : g.Counted nodes) (c : ClassRef) :
    (mgPrevisit c g).Counted nodes := by
  obtain ⟨counter, bound, distinct⟩ := counted
  have own : ((mgPrevisit c g).classes c).topOrder = -1 := by simp [mgPrevisit, modifyClass, mgDfnBusy]
  have others : ∀ x, x ≠ c → (mgPrevisit c g).classes x = g.classes x := by
    intro x other
    simp [mgPrevisit, modifyClass, other]
  have same : (mgPrevisit c g).dfnCounter = g.dfnCounter := rfl
  refine ⟨counter, fun x member => ?_, fun x memberX y memberY positive equal => ?_⟩
  · rw [same]
    by_cases here : x = c
    · rw [here, own]
      omega
    · rw [others x here]
      exact bound x member
  · have notX : x ≠ c := by
      rintro rfl
      omega
    have notY : y ≠ c := by
      rintro rfl
      omega
    rw [others x notX] at positive equal
    rw [others y notY] at equal
    exact distinct x memberX y memberY positive equal

/-- One class may be given the next number. -/
theorem Counted.number (counted : g.Counted nodes) (counter : g'.dfnCounter = g.dfnCounter + 1)
    (others : ∀ x, x ≠ c → (g'.classes x).topOrder = (g.classes x).topOrder)
    (own : (g'.classes c).topOrder = (g.classes c).topOrder ∨
      (g'.classes c).topOrder = g.dfnCounter + 1) : g'.Counted nodes := by
  obtain ⟨least, bound, distinct⟩ := counted
  refine ⟨by omega, fun x member => ?_, fun x memberX y memberY positive equal => ?_⟩
  · have before := bound x member
    by_cases here : x = c
    · subst here
      omega
    · rw [others x here]
      omega
  · by_cases hereX : x = c
    · by_cases hereY : y = c
      · rw [hereX, hereY]
      · have before := bound y memberY
        rw [others y hereY] at equal
        subst hereX
        exact distinct x memberX y memberY (by omega) (by omega)
    · have before := bound x memberX
      rw [others x hereX] at positive equal
      by_cases hereY : y = c
      · subst hereY
        exact distinct x memberX y memberY positive (by omega)
      · rw [others y hereY] at equal
        exact distinct x memberX y memberY positive equal

theorem Counted.postvisit (counted : g.Counted nodes) (run : mgPostvisit fuel c g = some g') :
    g'.Counted nodes := by
  rw [mgPostvisit] at run
  obtain ⟨g₁, numbered, rfl⟩ := Option.map_eq_some_iff.mp run
  split at numbered
  · obtain ⟨same, others, own⟩ := numberMembers_only numbered
    exact counted.number same (fun x other => congrArg MapClass.topOrder (others x other)) own
  · cases numbered
    have same : g.SameNumbers { g with dfnDepth := g.dfnDepth - 1 } := ⟨rfl, fun _ => rfl⟩
    exact same.counted counted

theorem Counted.followArcs {visit : ClassRef → MapGraph → Option MapGraph} {start : Option ArcRef}
    (visits : ∀ c g g', g.Counted nodes → visit c g = some g' → g'.Counted nodes)
    (counted : g.Counted nodes) (run : MapGraph.followArcs visit fuel start g = some g') :
    g'.Counted nodes := by
  induction fuel generalizing start g with
  | zero => cases run
  | succ fuel ih =>
    cases start with
    | none =>
      cases run
      exact counted
    | some arc =>
      rw [MapGraph.followArcs] at run
      split at run
      · cases run
      · rename_i called
        exact ih (visits _ _ _ counted called) run

theorem Counted.dfn (counted : g.Counted nodes) (run : mgDfn fuel c g = some g') :
    g'.Counted nodes := by
  induction fuel generalizing c g g' with
  | zero => cases run
  | succ fuel ih =>
    rw [mgDfn] at run
    split at run
    · cases run
      exact counted
    · split at run
      · exact (findCycle_same run).counted counted
      · simp only at run
        split at run
        · cases run
        · rename_i followed
          have visits : ∀ c g g', g.Counted nodes → mgDfn fuel c g = some g' → g'.Counted nodes :=
            fun _ _ _ before call => ih before call
          exact ((counted.previsit c).followArcs visits followed).postvisit run

theorem Counted.dfns (counted : g.Counted nodes) (run : mgDfns fuel roots g = some g') :
    g'.Counted nodes := by
  induction roots generalizing g with
  | nil =>
    cases run
    exact counted
  | cons c roots ih =>
    rw [mgDfns] at run
    split at run
    · cases run
    · rename_i called
      exact ih (counted.dfn called) run

theorem Initial.counted (initial : g.Initial nodes) : g.Counted nodes := by
  refine ⟨le_of_eq initial.counter.symm, fun c member => ?_, fun c member d _ positive _ => ?_⟩
  · rw [(initial.fresh c member).topOrder, initial.counter]
  · rw [(initial.fresh c member).topOrder] at positive
    exact absurd positive (lt_irrefl 0)

/-- Where cycles are found in the end, no cycle has two members. -/
theorem CyclesFound.acyclic (found : g.CyclesFound roots g') (counted : g'.Counted nodes)
    (inside : ∀ c, Reached g.ArcTo roots c → c ∈ nodes) {c d : ClassRef}
    (reached : Reached g.ArcTo roots c) (mutually : Mutual g.ArcTo c d) : c = d := by
  have reached' : Reached g.ArcTo roots d := by
    obtain ⟨root, isRoot, path⟩ := reached
    exact ⟨root, isRoot, path.trans mutually.1⟩
  obtain ⟨_, same⟩ := found.members c d reached mutually
  exact counted.distinct c (inside c reached) d (inside d reached') (found.positive c reached) same

/-- Without such cycles the search finds what is to be found. -/
theorem Searching.cyclesFound {done : List ClassRef} (searching : g.Searching done [] g')
    (initial : g.Initial nodes) (inside : ∀ c ∈ done, c ∈ nodes)
    (found : ∀ x, x ∈ done ↔ Reached g.ArcTo roots x)
    (acyclic : ∀ c d, Reached g.ArcTo roots c → Mutual g.ArcTo c d → c = d) :
    g.CyclesFound roots g' := by
  have member : ∀ c, Reached g.ArcTo roots c → c ∈ nodes := fun c reached =>
    inside c ((found c).mpr reached)
  have top := fun c reached =>
    @Searching.topOrder g c nodes done g' initial searching (member c reached)
  have head : ∀ c, Reached g.ArcTo roots c → (g'.classes c).cycHead = c := by
    intro c reached
    rw [searching.classes]
    exact (initial.fresh c (member c reached)).cycHead
  refine ⟨fun c reached => ?_, fun c d reachedC reachedD => ?_, fun c d reached mutually => ?_,
    fun c d reached arc other => ?_⟩
  · have positive := number_pos_iff.mpr ((found c).mpr reached)
    rw [top c reached]
    omega
  · rw [head c reachedC, head d reachedD]
    refine ⟨fun same => ?_, acyclic c d reachedC⟩
    rw [same]
    exact ⟨.refl, .refl⟩
  · obtain rfl := acyclic c d reached mutually
    refine ⟨⟨[c], ⟨?_, ?_⟩, List.mem_singleton_self c⟩, rfl⟩
    · rw [head c reached]
    · change (g'.classes c).cycNext = none
      rw [searching.classes]
      exact (initial.fresh c (member c reached)).cycNext
  · have apart : d ≠ c := by
      rintro rfl
      exact other ⟨.refl, .refl⟩
    have less := searching.ordered.number_lt ((found c).mpr reached) arc apart
    rw [top c reached, top d (reached.tail arc)]
    omega

/-- The search does what it is for exactly if no two classes that the roots reach are on a cycle. -/
theorem cycles_found_iff (g : MapGraph) (nodes : Finset ClassRef) (roots : List ClassRef)
    (initial : g.Initial nodes) (inside : ∀ c ∈ roots, c ∈ nodes) :
    (∃ g', Ends (fun fuel => mgDfns fuel roots g) g' ∧ g.CyclesFound roots g') ↔
      ∀ c d, Reached g.ArcTo roots c → Mutual g.ArcTo c d → c = d := by
  have member := fun c => @Initial.reached_inside g c nodes roots initial inside
  constructor
  · rintro ⟨g', ⟨n, run⟩, found⟩ c d reached mutually
    exact found.acyclic (initial.counted.dfns (run n (le_refl n))) member reached mutually
  · intro acyclic
    obtain ⟨g', done, ends, searching, reached⟩ := initial.dfns inside acyclic
    exact ⟨g', ends, searching.cyclesFound initial
      (fun c isDone => member c ((reached c).mp isDone)) reached acyclic⟩

theorem cycles_found_oneArc : ∃ g', Ends (fun fuel => mgDfns fuel [0] oneArc) g' ∧
    oneArc.CyclesFound [0] g' :=
  (cycles_found_iff oneArc {0, 1} [0] oneArc_initial (by decide)).mpr fun _ _ _ => oneArc_acyclic

/-- Two classes with an arc each to the other. -/
def twoArcs : MapGraph := ((bare fun _ => 1).linkArc 0 0 1 1).linkArc 1 1 0 1

theorem twoArcs_initial : twoArcs.Initial {0, 1} := by
  refine oneArc_initial.linkArc (fun c _ l list => ?_) (by decide)
  rw [Linked.unique list (oneArc_hasArcs c)]
  split
  · decide
  · exact List.not_mem_nil

/-- The second class of a cycle of two stays busy. -/
theorem twoArcs_unnumbered : twoArcs.Initial {0, 1} ∧
    (mgDfns 10 [0] twoArcs).map (fun g' => ((g'.classes 0).topOrder, (g'.classes 1).topOrder)) =
      some (1, -1) ∧
    ¬ ∃ g', Ends (fun fuel => mgDfns fuel [0] twoArcs) g' ∧ twoArcs.CyclesFound [0] g' := by
  refine ⟨twoArcs_initial, by decide +kernel, ?_⟩
  rintro ⟨g', ⟨n, run⟩, found⟩
  have there : twoArcs.ArcTo 0 1 := ⟨[0], ⟨rfl, rfl⟩, 0, List.mem_singleton_self 0, rfl⟩
  have back : twoArcs.ArcTo 1 0 := ⟨[1], ⟨rfl, rfl⟩, 1, List.mem_singleton_self 1, rfl⟩
  have inside : ∀ c ∈ [0], c ∈ ({0, 1} : Finset ClassRef) := by decide
  have counted := twoArcs_initial.counted.dfns (run n (le_refl n))
  have same : 0 = 1 := found.acyclic counted
    (fun c => @Initial.reached_inside twoArcs c {0, 1} [0] twoArcs_initial inside)
    ⟨0, List.mem_singleton_self 0, .refl⟩ ⟨.single there, .single back⟩
  exact absurd same (by decide)

end Phat.MapGraph
