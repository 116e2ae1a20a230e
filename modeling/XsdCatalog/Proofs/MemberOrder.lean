import Mathlib.Data.List.Nodup
import Mathlib.Data.List.Perm.Basic
import Mathlib.Logic.Relation
import XsdCatalog.Proofs.FollowedReferences
import XsdCatalog.Proofs.RegistryContents

/-!
# Redefined members come first

A collection is put into an order in which every member stands once. A member stands behind those
that it redefines, except where redefinitions lead from one of them back to it; if references never
lead in a circle, it stands behind all that its redefined members lead to. So where both declare
something, the catalog has the declaration of the redefining member or a later one.

Members are entered first and placed later. While a member waits for its place, all that stands above
it among the tasks is reached from it, by way of a redefinition. So what is entered and not placed
when a member gets its place leads to that member by way of a redefinition.
-/

namespace XsdCatalog

/-- The keys of the declarations of one kind. -/
def Written.Schema.declaredKeys (s : Written.Schema) (kind : ComponentKind) : List String :=
  (s.items.filterMap (·.declaredName? kind)).map (·.key)

/-- The number of the document that has the component of a kind filed under a key. -/
def Catalog.holder? (c : Catalog) (key : String) : ComponentKind → Option Nat
  | .element => (c.elements.get? key).map (·.document)
  | .complexType => (c.complexTypes.get? key).map (·.document)
  | .simpleType => (c.simpleTypes.get? key).map (·.document)
  | .attribute => (c.attributes.get? key).map (·.document)
  | .group => (c.groups.get? key).map (·.document)
  | .attributeGroup => (c.attributeGroups.get? key).map (·.document)

namespace Collection

open Relation

/-- One member refers to another. -/
def Refers (links : List Link) (i j : Nat) : Prop :=
  ∃ l ∈ links, l.source = i ∧ l.target = j

/-- One member redefines another. -/
def Redefines (links : List Link) (i j : Nat) : Prop :=
  ∃ l ∈ links, l.source = i ∧ l.target = j ∧ l.redefines = true

/-- References lead from one member to another in some steps or none. -/
def Leads (links : List Link) : Nat → Nat → Prop :=
  ReflTransGen (Refers links)

/-- References lead from one member to another, and the first of them is a redefinition. -/
def LeadsByRedefinition (links : List Link) (i j : Nat) : Prop :=
  ∃ k, Redefines links i k ∧ Leads links k j

/-- References never lead from a member back to it. -/
def Acyclic (links : List Link) : Prop :=
  ∀ i, ¬ TransGen (Refers links) i i

/-- The member that a task is about. -/
def Task.member : Task → Nat
  | enter i => i
  | place i => i

/-- The members whose places are still to come. -/
def waiting (tasks : List Task) : List Nat :=
  tasks.filterMap fun
    | .enter _ => none
    | .place i => some i

/-- What holds while tasks are worked off. -/
structure Midway (count : Nat) (links : List Link) (placed entered : List Nat)
    (tasks : List Task) : Prop where
  mem_entered : ∀ i, i ∈ entered ↔ i ∈ placed ∨ .place i ∈ tasks
  lt : ∀ i ∈ entered, i < count
  nodup : (placed ++ waiting tasks).Nodup
  /-- Redefinitions of a waiting member lead to all that comes before its place. -/
  above : tasks.Pairwise fun t u => ∀ i, u = .place i → LeadsByRedefinition links i t.member
  /-- What a waiting member redefines is entered before it is placed. -/
  redefined : ∀ i j, Redefines links i j → j < count → .place i ∈ tasks →
    j ∈ entered ∨ [.enter j, .place i].Sublist tasks
  /-- What an entered member refers to is entered, and only what it leads to comes before that. -/
  referred : ∀ i ∈ entered, ∀ j < count, Refers links i j → j ∈ entered ∨
    ∃ before after, tasks = before ++ .enter j :: after ∧ ∀ t ∈ before, Leads links i t.member

variable {count : Nat} {links : List Link} {placed entered : List Nat} {rest : List Task}
  {i j k : Nat}

private theorem Redefines.refers (h : Redefines links i j) : Refers links i j := by
  obtain ⟨l, hl, hs, ht, -⟩ := h
  exact ⟨l, hl, hs, ht⟩

private theorem LeadsByRedefinition.transGen (h : LeadsByRedefinition links i j) :
    TransGen (Refers links) i j := by
  obtain ⟨k, hr, hk⟩ := h
  exact .head' hr.refers hk

private theorem mem_linked {redefines : Bool} :
    j ∈ linked links redefines i ↔
      ∃ l ∈ links, l.source = i ∧ l.target = j ∧ l.redefines = redefines := by
  simp only [linked, List.mem_map, List.mem_filter, Bool.and_eq_true, beq_iff_eq]
  constructor
  · rintro ⟨l, ⟨hl, hs, hr⟩, ht⟩
    exact ⟨l, hl, hs, ht, hr⟩
  · rintro ⟨l, hl, hs, ht, hr⟩
    exact ⟨l, ⟨hl, hs, hr⟩, ht⟩

private theorem leads_of_mem_tasks {t : Task} (h : t ∈ tasks links i) : Leads links i t.member := by
  have hlinked {redefines : Bool} {j : Nat} (hj : j ∈ linked links redefines i) :
      Leads links i j := by
    obtain ⟨l, hl, hs, ht, -⟩ := mem_linked.1 hj
    exact .single ⟨l, hl, hs, ht⟩
  rw [tasks, List.mem_append, List.mem_cons] at h
  rcases h with h | rfl | h
  · obtain ⟨j, hj, rfl⟩ := List.mem_map.1 h
    exact hlinked hj
  · exact .refl
  · obtain ⟨j, hj, rfl⟩ := List.mem_map.1 h
    exact hlinked hj

private theorem enter_mem_tasks (h : Refers links i j) : .enter j ∈ tasks links i := by
  obtain ⟨l, hl, hs, ht⟩ := h
  have hj : j ∈ linked links l.redefines i := mem_linked.2 ⟨l, hl, hs, ht, rfl⟩
  have hmem := List.mem_map_of_mem (f := Task.enter) hj
  rw [tasks, List.mem_append, List.mem_cons]
  cases hr : l.redefines with
  | true => exact .inl (hr ▸ hmem)
  | false => exact .inr (.inr (hr ▸ hmem))

private theorem sublist_tasks (h : Redefines links i j) :
    [.enter j, .place i].Sublist (tasks links i) := by
  have hj : j ∈ linked links true i := mem_linked.2 h
  have henter : [Task.enter j].Sublist ((linked links true i).map .enter) :=
    List.singleton_sublist.2 (List.mem_map_of_mem hj)
  have hplace : [Task.place i].Sublist
      (.place i :: (linked links false i).map .enter) :=
    List.singleton_sublist.2 List.mem_cons_self
  exact henter.append hplace

private theorem waiting_tasks : waiting (tasks links i) = [i] := by
  simp [waiting, tasks, List.filterMap_append, List.filterMap_map]

private theorem mem_waiting {tasks : List Task} : i ∈ waiting tasks ↔ .place i ∈ tasks := by
  rw [waiting, List.mem_filterMap]
  constructor
  · rintro ⟨_ | j, ht, hj⟩
    · cases hj
    · rwa [← Option.some.inj hj]
  · exact fun h => ⟨_, h, rfl⟩

private theorem pairwise_tasks : (tasks links i).Pairwise fun t u =>
    ∀ j, u = .place j → LeadsByRedefinition links j t.member := by
  have henters (js : List Nat) : (js.map Task.enter).Pairwise fun t u =>
      ∀ j, u = .place j → LeadsByRedefinition links j t.member :=
    List.pairwise_map.2 (List.pairwise_of_forall fun _ _ _ h => nomatch h)
  rw [tasks, List.pairwise_append, List.pairwise_cons]
  refine ⟨henters _, ⟨fun u hu j hj => ?_, henters _⟩, fun t ht u hu j hj => ?_⟩
  · obtain ⟨k, -, rfl⟩ := List.mem_map.1 hu
    cases hj
  · obtain ⟨k, hk, rfl⟩ := List.mem_map.1 ht
    subst hj
    rcases List.mem_cons.1 hu with hu | hu
    · cases hu
      exact ⟨k, mem_linked.1 hk, .refl⟩
    · obtain ⟨m, -, hm⟩ := List.mem_map.1 hu
      cases hm

private theorem midway_start (count : Nat) (links : List Link) :
    Midway count links [] [] ((List.range count).map .enter) where
  mem_entered i := by simp
  lt i hi := nomatch hi
  nodup := by simp [waiting, List.filterMap_map]
  above := List.pairwise_map.2 (List.pairwise_of_forall fun _ _ _ h => nomatch h)
  redefined i j _ _ hi := by simp at hi
  referred i hi := nomatch hi

private theorem Midway.place (h : Midway count links placed entered (.place i :: rest)) :
    Midway count links (placed ++ [i]) entered rest where
  mem_entered k := by
    rw [h.mem_entered, List.mem_cons, List.mem_append, List.mem_singleton, Task.place.injEq,
      or_assoc]
  lt := h.lt
  nodup := by
    have hnodup := h.nodup
    rwa [show waiting (.place i :: rest) = i :: waiting rest from rfl, List.append_cons] at hnodup
  above := (List.pairwise_cons.1 h.above).2
  redefined k j hr hj hk := by
    refine (h.redefined k j hr hj (List.mem_cons_of_mem _ hk)).imp_right fun hs => ?_
    cases hs with
    | cons _ hs => exact hs
  referred k hk j hj hr := by
    refine (h.referred k hk j hj hr).imp_right ?_
    rintro ⟨_ | ⟨t, before⟩, after, he, hbefore⟩
    · cases he
    · rw [List.cons_append, List.cons.injEq] at he
      exact ⟨before, after, he.2, fun t ht => hbefore t (List.mem_cons_of_mem _ ht)⟩

private theorem Midway.skip (h : Midway count links placed entered (.enter i :: rest))
    (hi : ¬ (i < count ∧ i ∉ entered)) : Midway count links placed entered rest where
  mem_entered k := by simpa using h.mem_entered k
  lt := h.lt
  nodup := h.nodup
  above := (List.pairwise_cons.1 h.above).2
  redefined k j hr hj hk := by
    rcases h.redefined k j hr hj (List.mem_cons_of_mem _ hk) with he | hs
    · exact .inl he
    · cases hs with
      | cons _ hs => exact .inr hs
      | cons_cons _ hs => exact .inl (by_contra fun he => hi ⟨hj, he⟩)
  referred k hk j hj hr := by
    rcases h.referred k hk j hj hr with he | ⟨_ | ⟨t, before⟩, after, he, hbefore⟩
    · exact .inl he
    · cases he
      exact .inl (by_contra fun he => hi ⟨hj, he⟩)
    · rw [List.cons_append, List.cons.injEq] at he
      exact .inr ⟨before, after, he.2, fun t ht => hbefore t (List.mem_cons_of_mem _ ht)⟩

private theorem Midway.enter (h : Midway count links placed entered (.enter i :: rest))
    (hi : i < count) (hnew : i ∉ entered) :
    Midway count links placed (i :: entered) (tasks links i ++ rest) where
  mem_entered k := by
    rw [List.mem_cons, h.mem_entered, ← mem_waiting, ← mem_waiting, waiting, waiting,
      List.filterMap_append, List.mem_append, ← waiting, ← waiting, ← waiting, waiting_tasks,
      List.mem_singleton]
    exact or_left_comm
  lt k hk := by
    rcases List.mem_cons.1 hk with rfl | hk
    · exact hi
    · exact h.lt k hk
  nodup := by
    have hnodup : (placed ++ waiting rest).Nodup := h.nodup
    have hfresh : i ∉ placed ++ waiting rest := by
      rw [List.mem_append, mem_waiting]
      exact fun hm => hnew ((h.mem_entered i).2 (hm.imp_right (List.mem_cons_of_mem _)))
    rw [show waiting (tasks links i ++ rest) = i :: waiting rest by
      rw [waiting, List.filterMap_append, ← waiting, ← waiting, waiting_tasks]
      rfl]
    exact List.nodup_middle.2 (List.nodup_cons.2 ⟨hfresh, hnodup⟩)
  above := by
    obtain ⟨hhead, hrest⟩ := List.pairwise_cons.1 h.above
    rw [List.pairwise_append]
    refine ⟨pairwise_tasks, hrest, fun t ht u hu k hk => ?_⟩
    obtain ⟨m, hm, hl⟩ := hhead u hu k hk
    exact ⟨m, hm, hl.trans (leads_of_mem_tasks ht)⟩
  redefined k j hr hj hk := by
    rw [List.mem_append, ← mem_waiting, waiting_tasks, List.mem_singleton] at hk
    rcases hk with rfl | hk
    · exact .inr ((sublist_tasks hr).trans (List.sublist_append_left _ _))
    · rcases h.redefined k j hr hj (List.mem_cons_of_mem _ hk) with he | hs
      · exact .inl (List.mem_cons_of_mem _ he)
      · cases hs with
        | cons _ hs => exact .inr (hs.trans (List.sublist_append_right _ _))
        | cons_cons _ hs => exact .inl List.mem_cons_self
  referred k hk j hj hr := by
    rcases List.mem_cons.1 hk with rfl | hk
    · -- the entered member's own tasks stand on top, and it leads to all of them
      obtain ⟨before, after, he⟩ := List.append_of_mem (enter_mem_tasks hr)
      refine .inr ⟨before, after ++ rest, by simp [he], fun t ht => leads_of_mem_tasks ?_⟩
      rw [he]
      exact List.mem_append_left _ ht
    · rcases h.referred k hk j hj hr with he | ⟨_ | ⟨t, before⟩, after, he, hbefore⟩
      · exact .inl (List.mem_cons_of_mem _ he)
      · cases he
        exact .inl List.mem_cons_self
      · rw [List.cons_append, List.cons.injEq] at he
        obtain ⟨rfl, rfl⟩ := he
        refine .inr ⟨tasks links i ++ before, after, by simp, fun t ht => ?_⟩
        rcases List.mem_append.1 ht with ht | ht
        · exact (hbefore _ List.mem_cons_self).trans (leads_of_mem_tasks ht)
        · exact hbefore t (List.mem_cons_of_mem _ ht)

/-- When all tasks are worked off, everything is placed that was entered or was to be entered. -/
theorem Midway.finish {tasks : List Task} (h : Midway count links placed entered tasks) :
    ∃ all, Midway count links (placed ++ arrange count links entered tasks) all [] ∧
      ∀ i < count, i ∈ entered ∨ .enter i ∈ tasks → i ∈ all := by
  fun_induction arrange count links entered tasks generalizing placed with
  | case1 entered =>
    rw [List.append_nil]
    exact ⟨entered, h, fun i _ hi => hi.elim id nofun⟩
  | case2 entered i rest ih =>
    obtain ⟨all, hall, hmem⟩ := ih h.place
    rw [List.append_cons]
    exact ⟨all, hall, fun k hk he => hmem k hk (he.imp_right fun ht => by simpa using ht)⟩
  | case3 entered i rest hi _ ih =>
    obtain ⟨all, hall, hmem⟩ := ih (h.enter hi.1 hi.2)
    refine ⟨all, hall, fun k hk he => hmem k hk ?_⟩
    rw [List.mem_cons, Task.enter.injEq] at he
    rcases he with he | rfl | he
    · exact .inl (List.mem_cons_of_mem _ he)
    · exact .inl List.mem_cons_self
    · exact .inr (List.mem_append_right _ he)
  | case4 entered i rest hi ih =>
    obtain ⟨all, hall, hmem⟩ := ih (h.skip hi)
    refine ⟨all, hall, fun k hk he => hmem k hk ?_⟩
    rw [List.mem_cons, Task.enter.injEq] at he
    rcases he with he | rfl | he
    · exact .inl he
    · exact .inl (by_contra fun hne => hi ⟨hk, hne⟩)
    · exact .inr he

/-- Every member has a moment at which it gets its place. -/
theorem Midway.exists_moment {tasks : List Task} (h : Midway count links placed entered tasks)
    (hi : i ∈ arrange count links entered tasks) :
    ∃ before after entered' rest, placed ++ arrange count links entered tasks = before ++ i :: after ∧
      Midway count links before entered' (.place i :: rest) := by
  fun_induction arrange count links entered tasks generalizing placed with
  | case1 entered => cases hi
  | case2 entered k rest ih =>
    rcases List.mem_cons.1 hi with rfl | hi
    · exact ⟨placed, _, entered, rest, rfl, h⟩
    · obtain ⟨before, after, entered', rest', he, hm⟩ := ih h.place hi
      exact ⟨before, after, entered', rest', by rw [← he, List.append_cons], hm⟩
  | case3 entered k rest hk _ ih => exact ih (h.enter hk.1 hk.2) hi
  | case4 entered k rest hk ih => exact ih (h.skip hk) hi

theorem perm_order (count : Nat) (links : List Link) :
    (order count links).Perm (List.range count) := by
  obtain ⟨all, hall, hmem⟩ := (midway_start count links).finish
  have hall : Midway count links (order count links) all [] := hall
  have hnodup : (order count links).Nodup := by simpa [waiting] using hall.nodup
  refine (List.perm_ext_iff_of_nodup hnodup List.nodup_range).2 fun i => ?_
  have hplaced : i ∈ all ↔ i ∈ order count links := by simpa using hall.mem_entered i
  rw [← hplaced, List.mem_range]
  exact ⟨hall.lt i, fun hi => hmem i hi (.inr (List.mem_map_of_mem (List.mem_range.2 hi)))⟩

/-- What is entered and not placed yet leads to the member placed now, by way of a redefinition. -/
theorem Midway.mem_placed (h : Midway count links placed entered (.place i :: rest))
    (hj : j ∈ entered) (hne : j ≠ i) (hno : ¬ LeadsByRedefinition links j i) : j ∈ placed := by
  rcases (h.mem_entered j).1 hj with hp | ht
  · exact hp
  · rcases List.mem_cons.1 ht with he | ht
    · cases he
      exact absurd rfl hne
    · exact absurd ((List.pairwise_cons.1 h.above).1 _ ht j rfl) hno

private theorem Midway.redefined_mem_entered
    (h : Midway count links placed entered (.place i :: rest))
    (hr : Redefines links i j) (hj : j < count) : j ∈ entered := by
  rcases h.redefined i j hr hj List.mem_cons_self with he | hs
  · exact he
  · -- the place of `i` is on top, so nothing is left to be entered before it
    cases hs with
    | cons _ hs =>
      have hi : i ∈ waiting rest := mem_waiting.2 (hs.subset (by simp))
      have hnodup : (placed ++ i :: waiting rest).Nodup := h.nodup
      exact absurd hi (List.nodup_cons.1 (List.nodup_append.1 hnodup).2.1).1

/-- A member that is redefined is placed, unless it leads back by way of a redefinition. -/
theorem Midway.redefined_mem_placed (h : Midway count links placed entered (.place i :: rest))
    (hr : Redefines links i j) (hj : j < count) (hno : ¬ LeadsByRedefinition links j i) :
    j ∈ placed := by
  refine h.mem_placed (h.redefined_mem_entered hr hj) (fun he => hno ?_) hno
  subst he
  exact ⟨j, hr, .refl⟩

/-- Without circles all is placed that a redefined member leads to. -/
theorem Midway.led_mem_placed (h : Midway count links placed entered (.place i :: rest))
    (hlinks : ∀ l ∈ links, l.target < count) (hacyclic : Acyclic links)
    (hr : Redefines links i j) (hk : Leads links j k) : k ∈ placed := by
  have hlt {a b : Nat} (hab : Refers links a b) : b < count := by
    obtain ⟨l, hl, -, rfl⟩ := hab
    exact hlinks l hl
  have hno {a : Nat} (ha : Leads links j a) : ¬ LeadsByRedefinition links a i := fun hback =>
    hacyclic i (.head' hr.refers (ha.trans hback.transGen.to_reflTransGen))
  induction hk with
  | refl => exact h.redefined_mem_placed hr (hlt hr.refers) (hno .refl)
  | @tail a b ha hab ih =>
    have hb : b ∈ entered := by
      rcases h.referred a ((h.mem_entered a).2 (.inl ih)) b (hlt hab) hab with he |
        ⟨_ | ⟨t, before⟩, after, he, hbefore⟩
      · exact he
      · cases he
      · -- then the place of `i` comes before what `a` refers to, and `a` leads to `i`
        rw [List.cons_append, List.cons.injEq] at he
        obtain ⟨rfl, -⟩ := he
        exact absurd (.head' hr.refers (ha.trans (hbefore _ List.mem_cons_self))) (hacyclic i)
    refine h.mem_placed hb (fun he => ?_) (hno (ha.tail hab))
    subst he
    exact hacyclic b (.head' hr.refers (ha.tail hab))

/-- The number of a member in the order. -/
def standing (c : Collection) (member : Nat) : Nat :=
  (order c.members.length c.links).idxOf member

private theorem standing_lt_of_mem {c : Collection} {before after : List Nat}
    (h : order c.members.length c.links = before ++ i :: after) (hj : j ∈ before) :
    c.standing j < c.standing i := by
  have hnodup : (before ++ i :: after).Nodup :=
    h ▸ (perm_order c.members.length c.links).nodup_iff.2 List.nodup_range
  have hi : i ∉ before := fun hi =>
    (List.nodup_append.1 hnodup).2.2 i hi i List.mem_cons_self rfl
  rw [standing, standing, h, List.idxOf_append_of_mem hj, List.idxOf_append_of_notMem hi]
  exact Nat.lt_add_right _ (List.idxOf_lt_length_of_mem hj)

/-- Where a function has a value everywhere, its values have the places of what they are of. -/
theorem getElem?_filterMap_of_isSome {α β : Type} {f : α → Option β} {l : List α}
    (h : ∀ a ∈ l, (f a).isSome) (n : Nat) : (l.filterMap f)[n]? = l[n]?.bind f := by
  induction l generalizing n with
  | nil => rfl
  | cons a l ih =>
    obtain ⟨b, hb⟩ := Option.isSome_iff_exists.1 (h a List.mem_cons_self)
    have ih := ih fun x hx => h x (List.mem_cons_of_mem _ hx)
    rw [List.filterMap_cons_some hb]
    cases n with
    | zero => exact hb.symm
    | succ n => simpa using ih n

private theorem getElem?_schemas_standing (c : Collection) (hi : i < c.members.length) :
    c.schemas[c.standing i]? = c.schemaOf i := by
  have hperm := perm_order c.members.length c.links
  have hmem : i ∈ order c.members.length c.links := hperm.mem_iff.2 (List.mem_range.2 hi)
  rw [schemas, getElem?_filterMap_of_isSome, standing, List.getElem?_idxOf hmem]
  · rfl
  · intro k hk
    have hk := List.mem_range.1 (hperm.mem_iff.1 hk)
    simp [schemaOf, hk]

end Collection

private theorem Registry.exists_document_get?_collect {α : Type} {name : α → Option QName}
    {lists : List (List α)} {row : List α} {document : Nat} {key : String}
    (hrow : lists[document]? = some row) (hkey : key ∈ (row.filterMap name).map (·.key)) :
    ∃ holder, ((ofList (Entry.collect name lists)).get? key).map (·.document) = some holder ∧
      document ≤ holder := by
  obtain ⟨n, hn, rfl⟩ := List.mem_map.1 hkey
  obtain ⟨a, ha, hname⟩ := List.mem_filterMap.1 hn
  obtain ⟨slot, hslot⟩ := List.getElem?_of_mem ha
  have hstands : Entry.Stands name lists n.key ⟨document, slot, a⟩ :=
    ⟨row, hrow, hslot, by rw [hname]; rfl⟩
  have hfiled : n.key ∈ (ofList (Entry.collect name lists)).keys := by
    rw [keys_ofList, List.mem_eraseDups]
    exact List.mem_map_of_mem (f := (·.1)) (Entry.mem_collect (p := (_, _)).2 hstands)
  obtain ⟨p, hp, hpkey⟩ := List.mem_map.1 hfiled
  have hget := (keyed_collect hp).1
  rw [hpkey] at hget
  refine ⟨p.2.document, by rw [hget]; rfl, ?_⟩
  have hlast := (get?_collect.1 hget).2 _ hstands
  simp only [Precedes, Entry.place] at hlast
  omega

/-- What a document declares is filed from this document or from a later one. -/
theorem Catalog.holder?_of_mem_declaredKeys {schemas : List Written.Schema}
    {options : LoadOptions} {document : Nat} {s : Written.Schema} {kind : ComponentKind}
    {key : String} (hs : schemas[document]? = some s) (hkey : key ∈ s.declaredKeys kind) :
    ∃ holder, (load schemas options).holder? key kind = some holder ∧ document ≤ holder := by
  rw [load_eq]
  have hrow {α : Type} (list : Document → List α) :
      ((schemas.map (Document.ofSchema (.ofSchemas schemas))).map list)[document]?
        = some (list (Document.ofSchema (.ofSchemas schemas) s)) := by
    simp [hs]
  rw [Written.Schema.declaredKeys] at hkey
  cases kind with
  | element =>
    exact Registry.exists_document_get?_collect (hrow _) (Document.names_elements _ s ▸ hkey)
  | complexType =>
    exact Registry.exists_document_get?_collect (hrow _) (Document.names_complexTypes _ s ▸ hkey)
  | simpleType =>
    exact Registry.exists_document_get?_collect (hrow _) (Document.names_simpleTypes _ s ▸ hkey)
  | «attribute» =>
    exact Registry.exists_document_get?_collect (hrow _) (Document.names_attributes _ s ▸ hkey)
  | group =>
    exact Registry.exists_document_get?_collect (hrow _) (Document.names_groups _ s ▸ hkey)
  | attributeGroup =>
    exact Registry.exists_document_get?_collect (hrow _)
      (Document.names_attributeGroups _ s ▸ hkey)

namespace Collection

/-- The order has every member once. A member stands behind what it redefines, unless that leads
back to it by way of a redefinition. Without circles it stands behind all that it redefines leads
to, so that what it declares is filed from it or from a member behind it, and not from those. -/
structure RedefinedFirst (c : Collection) (options : Catalog.LoadOptions) : Prop where
  perm : c.schemas.Perm ((List.range c.members.length).filterMap c.schemaOf)
  standing : ∀ i < c.members.length, c.schemas[c.standing i]? = c.schemaOf i
  before : ∀ i j, Redefines c.links i j → ¬ LeadsByRedefinition c.links j i →
    c.standing j < c.standing i
  filed : Acyclic c.links → ∀ i j, Redefines c.links i j → ∀ k, Leads c.links j k →
    c.standing k < c.standing i ∧ ∀ s, c.schemaOf i = some s →
      ∀ kind, ∀ key ∈ s.declaredKeys kind, ∃ holder,
        (Catalog.load c.schemas options).holder? key kind = some holder ∧ c.standing i ≤ holder

private theorem redefinedFirst_of_links {c : Collection}
    (hlinks : ∀ l ∈ c.links, l.source < c.members.length ∧ l.target < c.members.length)
    (options : Catalog.LoadOptions) : RedefinedFirst c options := by
  have hperm := perm_order c.members.length c.links
  have hbounds {i j : Nat} (hr : Redefines c.links i j) :
      i < c.members.length ∧ j < c.members.length := by
    obtain ⟨l, hl, rfl, rfl, -⟩ := hr
    exact hlinks l hl
  -- What is placed when a member gets its place stands in front of it.
  have hmoment {i : Nat} (hi : i < c.members.length) :=
    (midway_start _ c.links).exists_moment (hperm.mem_iff.2 (List.mem_range.2 hi))
  constructor
  · exact hperm.filterMap _
  · intro i hi
    exact c.getElem?_schemas_standing hi
  · intro i j hr hno
    obtain ⟨hi, hj⟩ := hbounds hr
    obtain ⟨before, after, entered, rest, horder, hplaced⟩ := hmoment hi
    exact standing_lt_of_mem horder (hplaced.redefined_mem_placed hr hj hno)
  · intro hacyclic i j hr k hk
    obtain ⟨hi, -⟩ := hbounds hr
    obtain ⟨before, after, entered, rest, horder, hplaced⟩ := hmoment hi
    constructor
    · exact standing_lt_of_mem horder
        (hplaced.led_mem_placed (fun l hl => (hlinks l hl).2) hacyclic hr hk)
    · intro s hs kind key hkey
      exact Catalog.holder?_of_mem_declaredKeys ((c.getElem?_schemas_standing hi).trans hs) hkey

/-- Members come behind what they redefine, for all links between members and so for the members that
root files lead to. -/
theorem redefined_members_first (options : Catalog.LoadOptions) :
    (∀ c : Collection,
      (∀ l ∈ c.links, l.source < c.members.length ∧ l.target < c.members.length) →
        RedefinedFirst c options) ∧
    ∀ tree directory roots c, ofRoots tree directory roots = .ok c → RedefinedFirst c options := by
  constructor
  · intro c hlinks
    exact redefinedFirst_of_links hlinks options
  · intro tree directory roots c h
    exact redefinedFirst_of_links (links_of_ofRoots h) options

/-- Where links lead to later members only, they never lead in a circle. -/
theorem acyclic_of_lt {links : List Link} (h : ∀ l ∈ links, l.source < l.target) :
    Acyclic links := by
  intro i hi
  have hlt : ∀ j k, Refers links j k → j < k := by
    rintro j k ⟨l, hl, rfl, rfl⟩
    exact h l hl
  have hself : Relation.TransGen (· < ·) i i := Relation.TransGen.mono hlt _ _ hi
  rw [Relation.transGen_eq_self] at hself
  exact Nat.lt_irrefl i hself

/-- A schema with one element. -/
def personSchema : Written.Schema :=
  { items := [.element { name := some (.inSpace "urn:p" "person") }] }

/-- A member that redefines the second one, which includes the third one. -/
def redefiningCollection : Collection where
  members := [⟨["main.xsd"], personSchema⟩, ⟨["base.xsd"], {}⟩, ⟨["common.xsd"], personSchema⟩]
  links := [⟨0, 1, true⟩, ⟨1, 2, false⟩]

/-- A document that redefines another one, and both declare an element. -/
def redefiningTree : FileTree where
  files := [
    (["main.xsd"], Text.toBytes ("<schema xmlns=\"http://www.w3.org/2001/XMLSchema\">" ++
      "<redefine schemaLocation=\"base.xsd\"/><element name=\"person\"/></schema>")),
    (["base.xsd"], Text.toBytes ("<schema xmlns=\"http://www.w3.org/2001/XMLSchema\">" ++
      "<element name=\"person\"/></schema>"))]

private theorem ofRoots_redefinition (tree : FileTree) {main base : Written.Schema}
    (hmainPlace : tree.canonical [] "main.xsd" = .ok ["main.xsd"])
    (hbasePlace : tree.canonical [] "base.xsd" = .ok ["base.xsd"])
    (hmain : readAt tree ["main.xsd"] "main.xsd" = .ok main)
    (hbase : readAt tree ["base.xsd"] "base.xsd" = .ok base)
    (hmainTargets : targets (FileTree.placeText []) "main.xsd" main = [⟨"base.xsd", true⟩])
    (hbaseTargets : targets (FileTree.placeText []) "base.xsd" base = [])
    (hmainRejections : rejections (FileTree.placeText []) "main.xsd" main = [])
    (hbaseRejections : rejections (FileTree.placeText []) "base.xsd" base = []) :
    ofRoots tree [] ["main.xsd"] =
      .ok {
        members := [⟨["main.xsd"], main⟩, ⟨["base.xsd"], base⟩]
        links := [⟨0, 1, true⟩] } := by
  simp [ofRoots, addRoots, follow_cons, advance, hmainPlace, hbasePlace, hmain, hbase, find?, places,
    Collection.add, warn, Collection.link, pendingOf, hmainTargets, hbaseTargets, hmainRejections,
    hbaseRejections, List.findIdx?_cons]

theorem redefiningCollection_members_first :
    ((∀ l ∈ redefiningCollection.links, l.source < redefiningCollection.members.length ∧
      l.target < redefiningCollection.members.length) ∧
    redefiningCollection.standing 2 < redefiningCollection.standing 0 ∧
    ∃ holder, (Catalog.load redefiningCollection.schemas).holder? "urn:p|person" .element
        = some holder ∧ redefiningCollection.standing 0 ≤ holder) ∧
    ∃ c, ofRoots redefiningTree [] ["main.xsd"] = .ok c ∧ c.standing 1 < c.standing 0 ∧
      ∃ holder, (Catalog.load c.schemas).holder? "|person" .element = some holder ∧
        c.standing 0 ≤ holder := by
  constructor
  · have hlinks : ∀ l ∈ redefiningCollection.links,
        l.source < redefiningCollection.members.length ∧
          l.target < redefiningCollection.members.length := by decide
    have hacyclic : Acyclic redefiningCollection.links := acyclic_of_lt (by decide)
    have hredefines : Redefines redefiningCollection.links 0 1 :=
      ⟨⟨0, 1, true⟩, by decide, rfl, rfl, rfl⟩
    have hleads : Leads redefiningCollection.links 1 2 :=
      .single ⟨⟨1, 2, false⟩, by decide, rfl, rfl⟩
    obtain ⟨hbefore, hfiled⟩ := ((redefined_members_first {}).1 redefiningCollection hlinks).filed
      hacyclic 0 1 hredefines 2 hleads
    exact ⟨hlinks, hbefore, hfiled personSchema rfl .element "urn:p|person" (by decide)⟩
  · obtain ⟨main, hmain, hmainTargets, hmainRejections⟩ :=
      exists_readAt redefiningTree [] ["main.xsd"] "main.xsd" [⟨"base.xsd", true⟩]
        (by decide +kernel)
    obtain ⟨base, hbase, hbaseTargets, hbaseRejections⟩ :=
      exists_readAt redefiningTree [] ["base.xsd"] "base.xsd" [] (by decide +kernel)
    have hroots := ofRoots_redefinition redefiningTree (by decide) (by decide) hmain hbase
      hmainTargets hbaseTargets hmainRejections hbaseRejections
    have hkeys : ((readAt redefiningTree ["main.xsd"] "main.xsd").toOption.map
        (·.declaredKeys .element)) = some ["|person"] := by
      decide +kernel
    rw [hmain] at hkeys
    have hkeys : main.declaredKeys .element = ["|person"] := Option.some.inj hkeys
    obtain ⟨hbefore, hfiled⟩ := ((redefined_members_first {}).2 _ _ _ _ hroots).filed
      (acyclic_of_lt (List.forall_mem_singleton.2 (by decide))) 0 1
      ⟨⟨0, 1, true⟩, List.mem_singleton_self _, rfl, rfl, rfl⟩ 1 .refl
    exact ⟨_, hroots, hbefore, hfiled _ rfl .element "|person" (hkeys ▸ List.mem_singleton_self _)⟩

end Collection

end XsdCatalog
