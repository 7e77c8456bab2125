import Phat.ArcArray
import Phat.Deeds

/-! `resolveInstance` traverses the graph of the heap: every call is a call of the
memoised depth-first traversal, with the members `resolved`, `osize` and `csize` for its
cells, and it ends. -/
namespace Phat
open DepthFirst (Memo Visit Visits Perform entered unmarked)

abbrev Trace := List (DepthFirst.Event ObjRef Nat (BitVec 64))

def Look.memo (lk : Look) : Memo ObjRef (BitVec 64) where
  seen o := (lk.objects o).resolved
  own o := (lk.objects o).osize
  below o := (lk.objects o).csize

def touchOr (pos : Nat) : DepthFirst.Event ObjRef Nat (BitVec 64) → Nat
  | .touch pos => pos
  | _ => pos

/-- Where a trace leaves the file. -/
def lastTouch (trace : Trace) (pos : Nat) : Nat := trace.foldl touchOr pos

/-- What `resolveInstance` finds whenever it is called: the resolved classes are laid
out, and nothing has been added to an object before its turn. -/
structure Ready (jf : Jdump) (lk : Look) : Prop where
  sound : Sound jf lk
  arcs : ArcsSound lk
  fresh : ∀ o, (lk.objects o).resolved = false →
    (lk.objects o).csize = 0 ∧ (lk.objects o).xclassId = 0

/-- What the turn of an object leaves in its record, apart from the sizes. -/
structure Decoded (jf : Jdump) (o : ObjRef) (ho : ObjLook) : Prop where
  hvalues : ∀ hvalues, jf.decoded o = some hvalues → ho.hvalues = hvalues
  xclassId : (jf.hobject o).htype = .hVarray → (jf.hobject o).count ≠ 0 →
    ho.xclassId = jf.xclassOf o

/-- What a part of a traversal with the given trace leaves behind; the objects it
enters have been decoded by its end, and those before it are left as they were, except
for the running one. Arcs are made for the objects it enters and for those that are linking. -/
structure Ran (jf : Jdump) (running linking : ObjRef → Prop) (lk lk' : Look) (trace : Trace) :
    Prop where
  ready : Ready jf lk'
  traced : lk'.trace = lk.trace ++ trace
  pos : lk'.pos = lastTouch trace lk.pos
  classes : ∀ c, (lk.classes c).resolved = true → (lk'.classes c).resolved = true
  seen : ∀ o, (lk'.objects o).resolved = true ↔ (lk.objects o).resolved = true ∨ o ∈ entered trace
  fresh : ∀ o ∈ entered trace, (lk.objects o).resolved = false
  kept : ∀ o, ¬ running o → (lk.objects o).resolved = true →
    (lk'.objects o).hvalues = (lk.objects o).hvalues ∧
      (lk'.objects o).xclassId = (lk.objects o).xclassId
  decoded : ∀ o ∈ entered trace, Decoded jf o (lk'.objects o)
  laid : ∀ o ∈ entered trace, ∀ c, jf.classOf o = some c → (lk'.classes c).resolved = true
  allowed : ∀ o ∈ entered trace, ¬ jf.Refused o
  brought : Brought jf (fun o => linking o ∨ o ∈ entered trace) lk lk'

/-- An unresolved object that these lead to. -/
def Jdump.Ahead (jf : Jdump) (lk : Look) (os : List ObjRef) (x : ObjRef) : Prop :=
  ∃ o ∈ os, jf.graph.Reach o x ∧ (lk.objects x).resolved = false

/-- An array is refused that the turn of some unresolved object uses which these lead to. -/
def Jdump.Barred (jf : Jdump) (lk : Look) (os : List ObjRef) : Prop :=
  ∃ x, jf.Ahead lk os x ∧ jf.Refused x

/-- So is one of these, or such objects bring too many arcs. -/
def Jdump.Denied (jf : Jdump) (lk : Look) (os : List ObjRef) : Prop :=
  jf.Barred lk os ∨ jf.Crowded lk (jf.Ahead lk os)

/-- So is one of these, or such objects and those that are linking bring too many arcs. -/
def Jdump.Starved (jf : Jdump) (linking : ObjRef → Prop) (lk : Look) (os : List ObjRef) : Prop :=
  jf.Barred lk os ∨ jf.Crowded lk fun x => linking x ∨ jf.Ahead lk os x

/-- The result is good, or an array is denied and the program has stopped. -/
def Outcome {α : Type} (denied : Prop) (result : Except Stop α) (good : α → Prop) : Prop :=
  (∃ a, result = .ok a ∧ good a) ∨ (result = .error .nomem ∧ denied)

/-- Calls of `visit` on objects of `S` follow the graph while at most `limit` stored objects
are unresolved. -/
def Follows (jf : Jdump) (S : ObjRef → Prop)
    (visit : Look → ObjRef → Except Stop (Look × BitVec 64)) (limit : Nat) : Prop :=
  ∀ lk o, Ready jf lk → S o → (unmarked jf.stored.toFinset lk.memo).card ≤ limit →
    Outcome (jf.Denied lk [o]) (visit lk o) fun result => ∃ trace,
      Visit jf.graph lk.memo o trace result.1.memo result.2 ∧
      Ran jf (fun _ => False) (fun _ => False) lk result.1 trace

/-- They follow the graph and keep an invariant of the class records. -/
def Traverses (jf : Jdump) (S : ObjRef → Prop) (I : Account)
    (visit : Look → ObjRef → Except Stop (Look × BitVec 64)) (limit : Nat) : Prop :=
  ∀ lk o, Ready jf lk → S o → (unmarked jf.stored.toFinset lk.memo).card ≤ limit →
    Outcome (jf.Denied lk [o]) (visit lk o) fun result => ∃ trace,
      Visit jf.graph lk.memo o trace result.1.memo result.2 ∧
      Ran jf (fun _ => False) (fun _ => False) lk result.1 trace ∧
      Carries I lk result.1 (jf.deedsOf trace)

section Ran
variable {jf : Jdump} {lk lk₁ lk' : Look} {running linking : ObjRef → Prop}
  {trace trace' : Trace} {o : ObjRef}

theorem lastTouch_append (trace trace' : Trace) (pos : Nat) :
    lastTouch (trace ++ trace') pos = lastTouch trace' (lastTouch trace pos) :=
  List.foldl_append

theorem Decoded.congr {ho ho' : ObjLook} (decoded : Decoded jf o ho)
    (hvalues : ho'.hvalues = ho.hvalues) (xclassId : ho'.xclassId = ho.xclassId) :
    Decoded jf o ho' where
  hvalues := by
    rw [hvalues]
    exact decoded.hvalues
  xclassId := by
    rw [xclassId]
    exact decoded.xclassId

theorem Ran.refl (ready : Ready jf lk) : Ran jf running linking lk lk [] where
  ready := ready
  traced := (List.append_nil _).symm
  pos := rfl
  classes _ resolved := resolved
  seen o := by simp
  fresh o member := by cases member
  kept _ _ _ := ⟨rfl, rfl⟩
  decoded o member := by cases member
  laid o member := by cases member
  allowed o member := by cases member
  brought := .refl lk

theorem Ran.trans (first : Ran jf running linking lk lk₁ trace)
    (second : Ran jf running linking lk₁ lk' trace')
    (started : ∀ o, running o → (lk.objects o).resolved = true) :
    Ran jf running linking lk lk' (trace ++ trace') where
  ready := second.ready
  traced := by rw [second.traced, first.traced, List.append_assoc]
  pos := by rw [second.pos, first.pos, lastTouch_append]
  classes c resolved := second.classes c (first.classes c resolved)
  seen o := by
    rw [second.seen, first.seen, DepthFirst.entered_append, List.mem_append, or_assoc]
  fresh o member := by
    rw [DepthFirst.entered_append, List.mem_append] at member
    rcases member with member | member
    · exact first.fresh o member
    · have later := second.fresh o member
      rw [← Bool.not_eq_true] at later ⊢
      exact fun resolved => later ((first.seen o).mpr (.inl resolved))
  kept o still resolved := by
    obtain ⟨hvalues₁, xclass₁⟩ := first.kept o still resolved
    obtain ⟨hvalues₂, xclass₂⟩ := second.kept o still ((first.seen o).mpr (.inl resolved))
    exact ⟨hvalues₂.trans hvalues₁, xclass₂.trans xclass₁⟩
  decoded o member := by
    rw [DepthFirst.entered_append, List.mem_append] at member
    rcases member with member | member
    · have still : ¬ running o := by
        intro runs
        have before := started o runs
        rw [first.fresh o member] at before
        cases before
      obtain ⟨hvalues, xclass⟩ := second.kept o still ((first.seen o).mpr (.inr member))
      exact (first.decoded o member).congr hvalues xclass
    · exact second.decoded o member
  laid o member c classOf := by
    rw [DepthFirst.entered_append, List.mem_append] at member
    rcases member with member | member
    · exact second.classes c (first.laid o member c classOf)
    · exact second.laid o member c classOf
  allowed o member := by
    rw [DepthFirst.entered_append, List.mem_append] at member
    exact member.elim (first.allowed o) (second.allowed o)
  brought := by
    rw [DepthFirst.entered_append]
    refine (first.brought.mono fun o brings => ?_).trans (second.brought.mono fun o brings => ?_)
    · exact brings.imp_right (List.mem_append_left _)
    · exact brings.imp_right (List.mem_append_right _)

theorem Ran.weaken (ran : Ran jf (fun _ => False) linking lk lk' trace) :
    Ran jf running linking lk lk' trace :=
  { ran with kept := fun o _ => ran.kept o id }

/-- A call in the turn of an object. -/
theorem Ran.inner (ran : Ran jf running (fun _ => False) lk lk' trace) :
    Ran jf running linking lk lk' trace :=
  { ran with brought := ran.brought.mono fun _ brings => .inr (brings.resolve_left id) }

theorem Outcome.imp {α : Type} {denied : Prop} {result : Except Stop α} {good better : α → Prop}
    (outcome : Outcome denied result good) (step : ∀ a, good a → better a) :
    Outcome denied result better := by
  rcases outcome with ⟨a, ok, holds⟩ | refused
  · exact .inl ⟨a, ok, step a holds⟩
  · exact .inr refused

theorem Outcome.weaken {α : Type} {denied denied' : Prop} {result : Except Stop α} {good : α → Prop}
    (less : denied → denied') (outcome : Outcome denied result good) :
    Outcome denied' result good := by
  rcases outcome with good | ⟨stop, refused⟩
  · exact .inl good
  · exact .inr ⟨stop, less refused⟩

theorem Jdump.Ahead.mono {os os₁ : List ObjRef} {x : ObjRef} (ahead : jf.Ahead lk₁ os₁ x)
    (fresh : (lk₁.objects x).resolved = false → (lk.objects x).resolved = false)
    (leads : ∀ t ∈ os₁, ∃ o ∈ os, jf.graph.Reach o t) : jf.Ahead lk os x := by
  obtain ⟨t, target, path, clear⟩ := ahead
  obtain ⟨o, member, before⟩ := leads t target
  exact ⟨o, member, before.trans path, fresh clear⟩

theorem Jdump.denied_iff {os : List ObjRef} :
    jf.Denied lk os ↔ jf.Starved (fun _ => False) lk os := by
  simp only [Denied, Starved, false_or]

theorem Jdump.Denied.starved {os : List ObjRef} (denied : jf.Denied lk os) :
    jf.Starved linking lk os :=
  denied.imp_right ((Brought.refl lk).crowded fun _ => .inr)

theorem Jdump.Starved.mono {os os₁ : List ObjRef} {linking₁ : ObjRef → Prop}
    (starved : jf.Starved linking₁ lk₁ os₁)
    (ahead : ∀ x, jf.Ahead lk₁ os₁ x → jf.Ahead lk os x)
    (brought : Brought jf (fun x => linking x ∨ jf.Ahead lk os x) lk lk₁)
    (sources : ∀ x, linking₁ x → linking x ∨ jf.Ahead lk os x) : jf.Starved linking lk os := by
  rcases starved with ⟨x, before, refused⟩ | many
  · exact .inl ⟨x, ahead x before, refused⟩
  · refine .inr (brought.crowded (fun x source => ?_) many)
    exact source.elim (sources x) fun later => .inr (ahead x later)

/-- More targets, in the same state. -/
theorem Jdump.Starved.sub {os os₁ : List ObjRef} (starved : jf.Starved linking lk os₁)
    (sub : os₁ ⊆ os) : jf.Starved linking lk os :=
  starved.mono (fun _ ahead => ahead.mono id fun t target => ⟨t, sub target, .refl⟩) (.refl lk)
    fun _ => .inl

theorem Jdump.Denied.sub {os os₁ : List ObjRef} (denied : jf.Denied lk os₁) (sub : os₁ ⊆ os) :
    jf.Denied lk os :=
  denied_iff.mpr ((denied_iff.mp denied).sub sub)

/-- What has not been resolved by now was not before. -/
theorem Ran.fresher (ran : Ran jf running linking lk lk' trace) (x : ObjRef)
    (clear : (lk'.objects x).resolved = false) : (lk.objects x).resolved = false := by
  rw [← Bool.not_eq_true] at clear ⊢
  exact fun resolved => clear ((ran.seen x).mpr (.inl resolved))

/-- What is denied by now was denied before. -/
theorem Ran.starved {os os₁ : List ObjRef} (ran : Ran jf running linking lk lk' trace)
    (reached : ∀ x ∈ entered trace, ∃ o ∈ os, jf.graph.Reach o x)
    (starved : jf.Starved linking lk' os₁) (sub : os₁ ⊆ os) : jf.Starved linking lk os := by
  refine starved.mono ?_ (ran.brought.mono fun x brings => ?_) fun _ => .inl
  · exact fun x ahead => ahead.mono (ran.fresher x) fun t target => ⟨t, sub target, .refl⟩
  · refine brings.imp_right fun member => ?_
    obtain ⟨o, listed, path⟩ := reached x member
    exact ⟨o, listed, path, ran.fresh x member⟩

theorem Ran.denied {os os₁ : List ObjRef}
    (ran : Ran jf running (fun _ => False) lk lk' trace)
    (reached : ∀ x ∈ entered trace, ∃ o ∈ os, jf.graph.Reach o x) (denied : jf.Denied lk' os₁)
    (sub : os₁ ⊆ os) : jf.Denied lk os :=
  Jdump.denied_iff.mpr (ran.starved reached (Jdump.denied_iff.mp denied) sub)

end Ran

/-- A step that does not concern objects, and of the classes only their sizes and
arcs. -/
structure Quiet (lk lk' : Look) : Prop where
  objects : lk'.objects = lk.objects
  pos : lk'.pos = lk.pos
  trace : lk'.trace = lk.trace
  tfields : ∀ c, (lk'.classes c).tfields = (lk.classes c).tfields
  resolved : ∀ c, (lk'.classes c).resolved = (lk.classes c).resolved
  own : ∀ c, (lk'.classes c).own = (lk.classes c).own
  values : ∀ c, (lk'.classes c).values = (lk.classes c).values

section Quiet
variable {jf : Jdump} {lk lk₁ lk' : Look} {o : ObjRef} {c : ClassRef}

theorem Quiet.refl (lk : Look) : Quiet lk lk :=
  ⟨rfl, rfl, rfl, fun _ => rfl, fun _ => rfl, fun _ => rfl, fun _ => rfl⟩

theorem Quiet.trans (first : Quiet lk lk₁) (second : Quiet lk₁ lk') : Quiet lk lk' where
  objects := second.objects.trans first.objects
  pos := second.pos.trans first.pos
  trace := second.trace.trans first.trace
  tfields c := (second.tfields c).trans (first.tfields c)
  resolved c := (second.resolved c).trans (first.resolved c)
  own c := (second.own c).trans (first.own c)
  values c := (second.values c).trans (first.values c)

/-- Assigning other members of a class record. -/
theorem Quiet.setClass {look : ClassLook} (tfields : look.tfields = (lk.classes c).tfields)
    (resolved : look.resolved = (lk.classes c).resolved) (own : look.own = (lk.classes c).own)
    (values : look.values = (lk.classes c).values) : Quiet lk (lk.setClass c look) := by
  have other : ∀ x, x ≠ c → (lk.setClass c look).classes x = lk.classes x :=
    fun x apart => Look.classes_setClass_of_ne lk look apart
  refine ⟨rfl, rfl, rfl, fun x => ?_, fun x => ?_, fun x => ?_, fun x => ?_⟩
  all_goals
    by_cases here : x = c
    · rw [here, Look.classes_setClass_self]
      assumption
    · rw [other x here]

theorem Quiet.sound (quiet : Quiet lk lk') (sound : Sound jf lk) : Sound jf lk' := by
  intro c resolved
  rw [quiet.resolved] at resolved
  obtain ⟨cs, chain, laid, above⟩ := sound c resolved
  refine ⟨cs, chain, ⟨?_, ?_, ?_, laid.few⟩, fun s member => ?_⟩
  · rw [quiet.tfields]
    exact laid.tfields
  · rw [quiet.values]
    exact laid.values
  · rw [quiet.own]
    exact laid.named
  · rw [quiet.resolved]
    exact above s member

theorem putArc_quiet (lk : Look) (parent child : ClassRef) (count size : Int) :
    Quiet lk (putArc lk parent child count size) := by
  rw [putArc]
  refine Quiet.trans ?_ (.setClass rfl rfl rfl rfl)
  refine Quiet.trans ?_ (.setClass rfl rfl rfl rfl)
  split <;> exact ⟨rfl, rfl, rfl, fun _ => rfl, fun _ => rfl, fun _ => rfl, fun _ => rfl⟩

/-- `arc_add` finds the arc or makes it, unless there is no room for another. -/
theorem arcAdd_grants {hop hoc : ObjRef} {parent child : ClassRef}
    (parentOf : jf.classOf hop = some parent) (childOf : jf.classOf hoc = some child)
    (edge : jf.graph.Edge hop hoc) (sound : ArcsSound lk) (count : Int) :
    Outcome (jf.Crowded lk (· = hop)) (arcAdd jf lk hop hoc count) fun lk' =>
      Quiet lk lk' ∧ ArcsSound lk' ∧ Brought jf (· = hop) lk lk' := by
  have joins : jf.Joins hop (parent, child) := ⟨parentOf, hoc, edge, childOf⟩
  rw [Jdump.classOf] at parentOf childOf
  rw [arcAdd, parentOf, childOf]
  simp only
  cases found : arcLookup lk parent child with
  | some arc =>
    have kept : ArcsKept lk { lk with arcs := lk.arcs.modify arc fun a =>
        { a with count := a.count + count, childSize := a.childSize + (jf.hobject hoc).size } } :=
      .modify lk arc (fun _ => rfl) fun _ => rfl
    exact .inl ⟨_, rfl, ⟨rfl, rfl, rfl, fun _ => rfl, fun _ => rfl, fun _ => rfl, fun _ => rfl⟩,
      kept.sound sound, kept.brought⟩
  | none =>
    rcases @newArc_grants jf lk parent child (· = hop) sound found hop rfl joins count
        (jf.hobject hoc).size with ⟨ok, sound'⟩ | ⟨stop, many⟩
    · exact .inl ⟨_, ok, putArc_quiet lk parent child count _, sound',
        sound.brought_put found rfl joins⟩
    · exact .inr ⟨stop, many⟩

theorem arcAdd_quiet {hop hoc : ObjRef} {count : Int}
    (added : arcAdd jf lk hop hoc count = .ok lk') : Quiet lk lk' := by
  rw [arcAdd] at added
  split at added
  · split at added
    · cases added
      exact ⟨rfl, rfl, rfl, fun _ => rfl, fun _ => rfl, fun _ => rfl, fun _ => rfl⟩
    · rw [newArc] at added
      split at added
      · cases added
      · cases added
        exact putArc_quiet lk _ _ count _
  · cases added

end Quiet

section Memo
variable (lk : Look) (o : ObjRef)

@[simp] theorem Look.objects_setObj_self (ho : ObjLook) : (lk.setObj o ho).objects o = ho := by
  simp [setObj]

@[simp] theorem Look.setObj_setObj (a b : ObjLook) :
    (lk.setObj o a).setObj o b = lk.setObj o b := by
  simp [setObj]

theorem Look.objects_setObj_of_ne {x : ObjRef} (ho : ObjLook) (apart : x ≠ o) :
    (lk.setObj o ho).objects x = lk.objects x := by
  simp [setObj, apart]

/-- A member of an object record other than the one assigned. -/
theorem Look.setObj_keep {β : Type} (member : ObjLook → β) {ho : ObjLook}
    (same : member ho = member (lk.objects o)) (x : ObjRef) :
    member ((lk.setObj o ho).objects x) = member (lk.objects x) := by
  by_cases here : x = o
  · rw [here, Look.objects_setObj_self, same]
  · rw [Look.objects_setObj_of_ne _ _ _ here]

variable {lk o}

theorem Look.memo_congr {lk' : Look} (same : lk'.objects = lk.objects) : lk'.memo = lk.memo := by
  rw [memo, memo, same]

theorem Look.memo_setObj {ho : ObjLook} (resolved : ho.resolved = (lk.objects o).resolved)
    (osize : ho.osize = (lk.objects o).osize) (csize : ho.csize = (lk.objects o).csize) :
    (lk.setObj o ho).memo = lk.memo := by
  simp only [memo, Memo.mk.injEq]
  refine ⟨funext fun x => ?_, funext fun x => ?_, funext fun x => ?_⟩
  · exact setObj_keep lk o ObjLook.resolved resolved x
  · exact setObj_keep lk o ObjLook.osize osize x
  · exact setObj_keep lk o ObjLook.csize csize x

theorem Look.memo_mark :
    (lk.setObj o { lk.objects o with resolved := true }).memo = lk.memo.mark o := by
  simp only [memo, Memo.mark, Memo.mk.injEq]
  refine ⟨funext fun x => ?_, funext fun x => ?_, funext fun x => ?_⟩
  · by_cases here : x = o
    · rw [here, objects_setObj_self, Function.update_self]
    · rw [objects_setObj_of_ne _ _ _ here, Function.update_of_ne here]
  · exact setObj_keep lk o ObjLook.osize (by rfl) x
  · exact setObj_keep lk o ObjLook.csize (by rfl) x

theorem Look.memo_add (a : BitVec 64) :
    (lk.setObj o { lk.objects o with csize := (lk.objects o).csize + a }).memo =
      lk.memo.add o a := by
  simp only [memo, Memo.add, Memo.mk.injEq]
  refine ⟨funext fun x => ?_, funext fun x => ?_, funext fun x => ?_⟩
  · exact setObj_keep lk o ObjLook.resolved (by rfl) x
  · exact setObj_keep lk o ObjLook.osize (by rfl) x
  · by_cases here : x = o
    · rw [here, objects_setObj_self, Function.update_self]
    · rw [objects_setObj_of_ne _ _ _ here, Function.update_of_ne here]

theorem Look.memo_settle (c : ClassRef) (size : BitVec 64) :
    (lk.settle o c size).memo = lk.memo.settle o size := by
  simp only [memo, settle, setClass, Memo.settle, Memo.mk.injEq]
  refine ⟨funext fun x => ?_, funext fun x => ?_, funext fun x => ?_⟩
  · exact setObj_keep lk o ObjLook.resolved (by rfl) x
  · by_cases here : x = o
    · rw [here, objects_setObj_self, Function.update_self]
    · rw [objects_setObj_of_ne _ _ _ here, Function.update_of_ne here]
  · exact setObj_keep lk o ObjLook.csize (by rfl) x

end Memo

section Loops
variable {jf : Jdump} {S : ObjRef → Prop} {I : Account} {depth limit : Nat}
  {visit : Look → ObjRef → Except Stop (Look × BitVec 64)} {lk lk₁ lk' : Look} {o : ObjRef}
  {running linking : ObjRef → Prop} {trace : Trace}

theorem Ready.quiet (ready : Ready jf lk) (quiet : Quiet lk lk') (arcs : ArcsSound lk') :
    Ready jf lk' where
  sound := quiet.sound ready.sound
  arcs := arcs
  fresh o clear := by
    rw [quiet.objects] at clear ⊢
    exact ready.fresh o clear

/-- Assigning other members of an object whose turn has come. -/
theorem Ready.setObj (ready : Ready jf lk) {ho : ObjLook} (turn : ho.resolved = true) :
    Ready jf (lk.setObj o ho) where
  sound := ready.sound
  arcs := (ArcsAlone.setObj lk o ho).kept.sound ready.arcs
  fresh x clear := by
    by_cases here : x = o
    · rw [here, Look.objects_setObj_self, turn] at clear
      cases clear
    · rw [Look.objects_setObj_of_ne _ _ _ here] at clear ⊢
      exact ready.fresh x clear

/-- A step that leaves `resolved` and, but for the running object, `hvalues`. -/
theorem Ran.step {lk₂ : Look} (ran : Ran jf running linking lk lk₁ trace) (ready : Ready jf lk₂)
    (traced : lk₂.trace = lk₁.trace) (pos : lk₂.pos = lk₁.pos)
    (classes : ∀ c, (lk₁.classes c).resolved = true → (lk₂.classes c).resolved = true)
    (resolved : ∀ x, (lk₂.objects x).resolved = (lk₁.objects x).resolved)
    (contents : ∀ x, ¬ running x → (lk₂.objects x).hvalues = (lk₁.objects x).hvalues ∧
      (lk₂.objects x).xclassId = (lk₁.objects x).xclassId)
    (brought : Brought jf linking lk₁ lk₂)
    (started : ∀ x, running x → (lk.objects x).resolved = true) :
    Ran jf running linking lk lk₂ trace := by
  have second : Ran jf running linking lk₁ lk₂ [] := by
    constructor
    · exact ready
    · rw [traced, List.append_nil]
    · exact pos
    · exact classes
    · intro x
      simp [resolved]
    · intro x member
      cases member
    · intro x still _
      exact contents x still
    · intro x member
      cases member
    · intro x member
      cases member
    · intro x member
      cases member
    · exact brought.mono fun _ => .inl
  simpa using ran.trans second started

/-- Following one reference. -/
theorem followRef_follows (region : jf.Region S depth) (watched : Watched jf I)
    (follows : Traverses jf S I visit limit)
    (ready : Ready jf lk) (inside : S o) (turn : (lk.objects o).resolved = true)
    (left : (unmarked jf.stored.toFinset lk.memo).card ≤ limit) {ident : BitVec 64}
    (leads : ∀ t ∈ DepthFirst.targets (jf.follow ident), jf.graph.Edge o t) :
    Outcome (jf.Starved (· = o) lk (DepthFirst.targets (jf.follow ident)))
      (followRef visit jf lk o ident) fun lk' => ∃ trace,
      Ran jf (fun _ => False) (· = o) lk lk' trace ∧
      Carries I lk lk' (jf.deedsOf trace + links o (jf.follow ident)) ∧
      ∀ acts rest m', Perform jf.graph lk'.memo o acts rest m' →
        Perform jf.graph lk.memo o (jf.follow ident ++ acts) (trace ++ rest) m' := by
  rw [followRef]
  cases found : jf.hTable.lookup32 (key ident) with
  | none =>
    rw [Jdump.follow_none found]
    exact .inl ⟨lk, rfl, [], .refl ready, .refl I lk, fun acts rest m' run => run⟩
  | some dref =>
    have edge : jf.graph.Edge o dref := leads dref (by simp [Jdump.follow_some found])
    have target : S dref := region.closed o dref inside edge
    rcases follows lk dref ready target left with
      ⟨⟨lk₁, a⟩, ok, trace, call, ran, carried⟩ | ⟨stop, refused⟩
    · obtain ⟨parent, _, parentOf, _⟩ := region.classes o inside
      obtain ⟨child, _, childOf, _⟩ := region.classes dref target
      have still : (lk₁.objects o).resolved = true := (ran.seen o).mpr (.inl turn)
      have alone := ArcsAlone.setObj lk₁ o
        { lk₁.objects o with csize := (lk₁.objects o).csize + a }
      rcases arcAdd_grants parentOf childOf edge (alone.kept.sound ran.ready.arcs) 1 with
        ⟨lk₂, added, quiet, arcs, brought⟩ | ⟨stop, many⟩
      · have told : Carries I lk₁ lk₂ {.link o dref} := by
          intro past holds
          refine watched.link _ lk₂ o dref past (region.stored o inside) (region.stored dref target)
            added ?_
          exact watched.same lk₁ _ past rfl rfl rfl rfl holds
        refine .inl ⟨lk₂, by simp only [ok, added], trace, ?_, ?_, fun acts rest m' run => ?_⟩
        · refine ran.inner.step ?_ quiet.trace quiet.pos ?_ ?_ ?_
            (alone.kept.brought.trans brought) (fun _ impossible => impossible.elim)
          · refine Ready.quiet ?_ quiet arcs
            apply Ready.setObj ran.ready
            exact still
          · intro c resolved
            rw [quiet.resolved]
            exact resolved
          · intro x
            rw [quiet.objects]
            exact Look.setObj_keep lk₁ o ObjLook.resolved (by rfl) x
          · intro x _
            rw [quiet.objects]
            constructor
            · exact Look.setObj_keep lk₁ o ObjLook.hvalues (by rfl) x
            · exact Look.setObj_keep lk₁ o ObjLook.xclassId (by rfl) x
        · rw [Jdump.follow_some found, links_follow]
          exact carried.trans told
        · rw [Jdump.follow_some found, List.singleton_append]
          apply call.perform
          rw [← Look.memo_add, ← Look.memo_congr quiet.objects]
          exact run
      · refine .inr ⟨by simp only [ok, stop], ?_⟩
        rw [Jdump.follow_some found, DepthFirst.targets_follow, DepthFirst.targets_nil]
        have later : jf.Starved (· = o) lk₁ [dref] :=
          .inr (alone.kept.brought.crowded (fun _ same => .inl same) many)
        refine (@Ran.inner jf lk lk₁ _ (· = o) trace ran).starved (fun x member => ?_) later
          (List.Subset.refl _)
        exact ⟨dref, List.mem_singleton_self dref, call.reach member⟩
    · refine .inr ⟨by simp only [stop], ?_⟩
      rw [Jdump.follow_some found]
      exact refused.starved

/-- What a part of a loop enters is reached from what it follows. -/
theorem reached_of_extend {part later : List (DepthFirst.Act ObjRef Nat)} {x : ObjRef}
    (extend : ∀ acts rest m', Perform jf.graph lk'.memo o acts rest m' →
      Perform jf.graph lk.memo o (part ++ acts) (trace ++ rest) m') (member : x ∈ entered trace) :
    ∃ t ∈ DepthFirst.targets part ++ DepthFirst.targets later, jf.graph.Reach t x := by
  have run := extend [] [] _ (.nil _ _)
  rw [List.append_nil, List.append_nil] at run
  obtain ⟨t, target, path⟩ := run.reach member
  exact ⟨t, List.mem_append_left _ target, path⟩

theorem unmarked_le (ran : Ran jf running linking lk lk' trace)
    (left : (unmarked jf.stored.toFinset lk.memo).card ≤ limit) :
    (unmarked jf.stored.toFinset lk'.memo).card ≤ limit := by
  refine le_trans (Finset.card_le_card (DepthFirst.unmarked_mono fun x marked => ?_)) left
  exact (ran.seen x).mpr (.inl marked)

/-- The second loop of an object array. -/
theorem elementLoop_follows (region : jf.Region S depth) (watched : Watched jf I)
    (follows : Traverses jf S I visit limit)
    (ready : Ready jf lk) (inside : S o) (turn : (lk.objects o).resolved = true)
    (left : (unmarked jf.stored.toFinset lk.memo).card ≤ limit)
    {before idents : List (BitVec 64)}
    (hvalues : (lk.objects o).hvalues = .values ((before ++ idents).map .ident))
    (leads : ∀ t ∈ DepthFirst.targets (idents.flatMap jf.follow), jf.graph.Edge o t) :
    Outcome (jf.Starved (· = o) lk (DepthFirst.targets (idents.flatMap jf.follow)))
      (elementLoop visit jf o idents.length before.length lk) fun lk' => ∃ trace,
      Ran jf (fun _ => False) (· = o) lk lk' trace ∧
      Carries I lk lk' (jf.deedsOf trace + links o (idents.flatMap jf.follow)) ∧
      Perform jf.graph lk.memo o (idents.flatMap jf.follow) trace lk'.memo := by
  induction idents generalizing before lk with
  | nil => exact .inl ⟨lk, rfl, [], .refl ready, .refl I lk, .nil _ _⟩
  | cons ident idents ih =>
    have here : (lk.objects o).hvalues.identAt before.length = some ident := by
      rw [hvalues, Hvalues.identAt]
      simp
    rw [List.length_cons, elementLoop, here]
    simp only
    rw [List.flatMap_cons, DepthFirst.targets_append] at leads ⊢
    rcases followRef_follows region watched follows ready inside turn left
        fun t target => leads t (List.mem_append_left _ target) with
      ⟨lk₁, ok, trace, ran, carried, extend⟩ | ⟨stop, refused⟩
    · rw [ok]
      have later : (lk₁.objects o).hvalues =
          .values (((before ++ [ident]) ++ idents).map .ident) := by
        rw [(ran.kept o id turn).1, hvalues, List.append_assoc]
        rfl
      have next := ih ran.ready ((ran.seen o).mpr (.inl turn)) (unmarked_le ran left) later
        fun t target => leads t (List.mem_append_right _ target)
      rw [List.length_append, List.length_singleton] at next
      rcases next with ⟨lk', ended, trace', ran', carried', run⟩ | ⟨stop, refused⟩
      · exact .inl ⟨lk', ended, trace ++ trace',
          ran.trans ran' (fun _ impossible => impossible.elim), carried.join carried',
          extend _ _ _ run⟩
      · refine .inr ⟨stop, ran.starved (fun x member => ?_) refused (List.subset_append_right _ _)⟩
        exact reached_of_extend extend member
    · exact .inr ⟨by rw [stop], refused.sub (List.subset_append_left _ _)⟩

/-- What follows the assignment of a slot. -/
theorem followStored_follows (region : jf.Region S depth) (watched : Watched jf I)
    (follows : Traverses jf S I visit limit)
    (ready : Ready jf lk) (inside : S o) (turn : (lk.objects o).resolved = true)
    (left : (unmarked jf.stored.toFinset lk.memo).card ≤ limit) {value : Option Hvalue}
    (leads : ∀ t ∈ DepthFirst.targets (jf.slotFollow value), jf.graph.Edge o t) :
    Outcome (jf.Starved (· = o) lk (DepthFirst.targets (jf.slotFollow value)))
      (followStored visit jf lk o value) fun lk' => ∃ trace,
      Ran jf (fun _ => False) (· = o) lk lk' trace ∧
      Carries I lk lk' (jf.deedsOf trace + links o (jf.slotFollow value)) ∧
      ∀ acts rest m', Perform jf.graph lk'.memo o acts rest m' →
        Perform jf.graph lk.memo o (jf.slotFollow value ++ acts) (trace ++ rest) m' := by
  have nothing : ∀ denied, Outcome denied (.ok lk) fun lk' => ∃ trace,
      Ran jf (fun _ => False) (· = o) lk lk' trace ∧
      Carries I lk lk' (jf.deedsOf trace + links o []) ∧
      ∀ acts rest m', Perform jf.graph lk'.memo o acts rest m' →
        Perform jf.graph lk.memo o ([] ++ acts) (trace ++ rest) m' :=
    fun _ => .inl ⟨lk, rfl, [], .refl ready, .refl I lk, fun _ _ _ run => run⟩
  cases value with
  | none => exact nothing _
  | some value =>
    cases value with
    | ident ident => exact followRef_follows region watched follows ready inside turn left leads
    | _ => exact nothing _

theorem storeSlot_next {done back : List Hvalue}
    (hvalues : (lk.objects o).hvalues = .values (done ++ .unset :: back)) (stored : Option Hvalue) :
    storeSlot lk o done.length stored = .ok (lk.setObj o { lk.objects o with
      hvalues := .values (done ++ stored.getD .unset :: back) }) := by
  cases stored with
  | none =>
    have same : { lk.objects o with hvalues := .values (done ++ .unset :: back) } =
        lk.objects o := by rw [← hvalues]
    rw [storeSlot, Option.getD_none, same, Look.setObj, Function.update_eq_self]
  | some value =>
    rw [storeSlot]
    simp only [hvalues]
    rw [if_pos (by simp), List.set_append_right _ _ le_rfl, Nat.sub_self, List.set_cons_zero]
    rfl

/-- An instant of the turn of `o`, without a call. -/
theorem Ran.instant (ready : Ready jf lk) (turn : (lk.objects o).resolved = true)
    (sound : Sound jf lk') (quiet : entered trace = []) (traced : lk'.trace = lk.trace ++ trace)
    (pos : lk'.pos = lastTouch trace lk.pos)
    (classes : ∀ c, (lk'.classes c).resolved = (lk.classes c).resolved)
    (others : ∀ x, x ≠ o → lk'.objects x = lk.objects x)
    (still : (lk'.objects o).resolved = true) (alone : ArcsAlone lk lk') :
    Ran jf (· = o) linking lk lk' trace where
  ready :=
    { sound := sound
      arcs := alone.kept.sound ready.arcs
      fresh := by
        intro x clear
        have apart : x ≠ o := by
          rintro rfl
          rw [still] at clear
          cases clear
        rw [others x apart] at clear ⊢
        exact ready.fresh x clear }
  traced := traced
  pos := pos
  classes c resolved := by rwa [classes]
  seen x := by
    rw [quiet]
    by_cases here : x = o
    · rw [here, still, turn]
      simp
    · rw [others x here]
      simp
  fresh x member := by
    rw [quiet] at member
    cases member
  kept x other _ := by
    rw [others x other]
    exact ⟨rfl, rfl⟩
  decoded x member := by
    rw [quiet] at member
    cases member
  laid x member := by
    rw [quiet] at member
    cases member
  allowed x member := by
    rw [quiet] at member
    cases member
  brought := alone.kept.brought

theorem Sound.congr (sound : Sound jf lk) (same : lk'.classes = lk.classes) : Sound jf lk' := by
  intro c resolved
  rw [same] at resolved ⊢
  exact sound c resolved

/-- In its turn `o` is given new values, from what has been read before. -/
theorem Ran.assign (ready : Ready jf lk) (turn : (lk.objects o).resolved = true)
    {hvalues : Hvalues} {pos : Nat} {all : Trace} {lk₁ : Look} (quiet : entered trace = [])
    (traced : all = lk.trace ++ trace) (last : pos = lastTouch trace lk.pos)
    (after : { lk with pos := pos, trace := all }.setObj o { lk.objects o with hvalues } = lk₁) :
    lk₁.objects o = { lk.objects o with hvalues } ∧ lk₁.memo = lk.memo ∧
      Ran jf (· = o) linking lk lk₁ trace := by
  subst after
  have self := Look.objects_setObj_self { lk with pos := pos, trace := all } o
    { lk.objects o with hvalues }
  refine ⟨self, Look.memo_setObj rfl rfl rfl, .instant ready turn (ready.sound.congr rfl) quiet
    traced last (fun _ => rfl) (fun x apart => Look.objects_setObj_of_ne _ _ _ apart) ?_
    ⟨rfl, rfl, rfl, fun _ => rfl, fun _ => rfl⟩⟩
  rw [self]
  exact turn

theorem Sound.settle (sound : Sound jf lk) (c : ClassRef) (size : BitVec 64) :
    Sound jf (lk.settle o c size) := by
  have assigned : Sound jf (lk.setObj o { lk.objects o with osize := size }) := sound.congr rfl
  apply Quiet.sound (Quiet.setClass _ _ _ _) assigned <;> rfl

/-- The field loop of an instance. -/
theorem fieldLoop_follows (region : jf.Region S depth) (watched : Watched jf I)
    (follows : Traverses jf S I visit limit)
    {c : ClassRef} {cs : List ClassRef} (chain : jf.Chain c cs) (ready : Ready jf lk)
    (inside : S o) (turn : (lk.objects o).resolved = true)
    (laid : (lk.classes c).resolved = true)
    (left : (unmarked jf.stored.toFinset lk.memo).card ≤ limit) {before fields : List Finfo}
    (layout : jf.layoutOf 0 cs = before ++ fields) {done : List Hvalue}
    (length : done.length = before.length)
    (hvalues : (lk.objects o).hvalues =
      .values (done ++ List.replicate fields.length .unset)) (size : BitVec 64)
    (leads : ∀ t ∈ DepthFirst.targets (jf.slotActs o before.length fields), jf.graph.Edge o t) :
    Outcome (jf.Starved (· = o) lk (DepthFirst.targets (jf.slotActs o before.length fields)))
      (fieldLoop visit jf o c fields.length before.length size lk) fun result => ∃ trace,
      Ran jf (· = o) (· = o) lk result.1 trace ∧
      Carries I lk result.1 (jf.deedsOf trace + links o (jf.slotActs o before.length fields)) ∧
      Perform jf.graph lk.memo o (jf.slotActs o before.length fields) trace result.1.memo ∧
      result.2 = size + jf.slotsSize o before.length fields ∧
      (result.1.objects o).hvalues = .values (done ++ jf.slotValues o before.length fields) := by
  induction fields generalizing before done lk size with
  | nil =>
    refine .inl ⟨(lk, size), rfl, [], .refl ready, .refl I lk, .nil _ _, ?_, hvalues⟩
    exact (BitVec.add_zero size).symm
  | cons field fields ih =>
    have cell : (lk.classes c).values[before.length]? = some (Cell.once field) := by
      obtain ⟨cs', again, shape, _⟩ := ready.sound c laid
      obtain rfl := again.unique chain
      have some : 0 < jf.fieldCount cs' := by
        rw [← jf.length_layoutOf 0 cs', layout]
        simp
      rw [shape.values some, layout]
      simp
    have reading : readField jf o before.length field.ftype ((jf.hobject o).fpos + field.offset) =
        jf.readSlot o before.length field := rfl
    have acts : jf.slotActs o before.length (field :: fields) =
        .touch (jf.readSlot o before.length field).pos ::
          (jf.slotFollow (jf.readSlot o before.length field).stored ++
            jf.slotActs o (before.length + 1) fields) := rfl
    have total : jf.slotsSize o before.length (field :: fields) =
        BitVec.ofNat 64 (jf.readSlot o before.length field).size +
          jf.slotsSize o (before.length + 1) fields := rfl
    have listed : jf.slotValues o before.length (field :: fields) =
        (jf.readSlot o before.length field).stored.getD .unset ::
          jf.slotValues o (before.length + 1) fields := rfl
    rw [acts, DepthFirst.targets_touch, DepthFirst.targets_append] at leads
    rw [acts, total, listed, DepthFirst.targets_touch, DepthFirst.targets_append]
    generalize jf.readSlot o before.length field = read at reading leads
    have slot := @storeSlot_next ({ lk with pos := read.pos }.note (.touch read.pos)) o done
      (List.replicate fields.length .unset) (by exact hvalues) read.stored
    rw [length] at slot
    generalize after : ({ lk with pos := read.pos }.note (.touch read.pos)).setObj o
      { lk.objects o with hvalues := .values (done ++ read.stored.getD .unset ::
        List.replicate fields.length .unset) } = lk₁
    replace slot : storeSlot ({ lk with pos := read.pos }.note (.touch read.pos)) o before.length
        read.stored = .ok lk₁ := by
      rw [← after]
      exact slot
    obtain ⟨self, memo, first⟩ := @Ran.assign jf lk o (· = o) [.touch read.pos] ready turn _ _ _ _
      rfl rfl rfl after
    have turn₁ : (lk₁.objects o).resolved = true := by
      rw [self]
      exact turn
    have untold : Carries I lk lk₁ (jf.deedsOf [.touch read.pos] + links o [.touch read.pos]) := by
      apply watched.still
      all_goals
        rw [← after]
        rfl
    have stops : ∀ stop, followStored visit jf lk₁ o read.stored = .error stop →
        fieldLoop visit jf o c (field :: fields).length before.length size lk = .error stop := by
      intro stop failed
      rw [List.length_cons, fieldLoop, cell]
      simp only [Cell.once, reading, slot, failed]
    have goes : ∀ lk₂, followStored visit jf lk₁ o read.stored = .ok lk₂ →
        fieldLoop visit jf o c (field :: fields).length before.length size lk =
          fieldLoop visit jf o c fields.length (before.length + 1)
            (size + BitVec.ofNat 64 read.size) lk₂ := by
      intro lk₂ ok
      rw [List.length_cons, fieldLoop, cell]
      simp only [Cell.once, reading, slot, ok]
    have started : ∀ x, x = o → (lk.objects x).resolved = true := by
      rintro x rfl
      exact turn
    rcases followStored_follows region watched follows first.ready inside turn₁
      (unmarked_le first left) (fun t target => leads t (List.mem_append_left _ target)) with
      ⟨lk₂, ok, trace, ran, carried, extend⟩ | ⟨stop, refused⟩
    · rw [goes lk₂ ok]
      have both := first.trans ran.weaken started
      have hvalues₂ : (lk₂.objects o).hvalues = .values ((done ++ [read.stored.getD .unset]) ++
          List.replicate fields.length .unset) := by
        rw [(ran.kept o id turn₁).1, ← after, Look.objects_setObj_self, List.append_assoc]
        rfl
      have next := @ih lk₂ both.ready ((both.seen o).mpr (.inl turn)) (both.classes c laid)
        (unmarked_le both left) (before ++ [field]) (by rw [layout, List.append_assoc]; rfl)
        (done ++ [read.stored.getD .unset]) (by simp [length]) hvalues₂
        (size + BitVec.ofNat 64 read.size)
      rw [List.length_append, List.length_singleton] at next
      rcases next (fun t target => leads t (List.mem_append_right _ target)) with
        ⟨⟨lk', size'⟩, ended, trace', ran', carried', run, sum, values⟩ | ⟨stop, refused⟩
      · refine .inl ⟨_, ended, [.touch read.pos] ++ trace ++ trace', both.trans ran' started,
          ?_, ?_, ?_, ?_⟩
        · rw [List.append_assoc]
          exact untold.join (carried.join carried')
        · rw [← memo]
          exact .touch (extend _ _ _ run)
        · rw [sum, BitVec.add_assoc]
        · rw [values, List.append_assoc]
          rfl
      · refine .inr ⟨stop, both.starved (fun x member => ?_) refused (List.subset_append_right _ _)⟩
        exact reached_of_extend extend member
    · refine .inr ⟨stops _ stop, first.starved (fun x member => ?_) refused
        (List.subset_append_left _ _)⟩
      cases member

end Loops

end Phat
