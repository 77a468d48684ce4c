import Reckoner.History
import Reckoner.Proofs.History.Items

set_option autoImplicit false

namespace Reckoner.History

def Action.creates? : Action → Option Item
  | .add expression result stamp =>
    if Text.isAllBlank expression then none
    else some ⟨stamp.id, Text.withoutBlanks expression, result, stamp.moment⟩
  | .erase _ | .clear => none

def created (actions : List Action) : List Item := actions.filterMap Action.creates?

def countOf (h : History) (actions : List Action) : Nat := h.items.countP (· ∈ created actions)

/-- The actions, from the history `h` on, leave the item alone: they neither erase it nor clear the
history, and no addition fills the history with items that are newer. -/
structure Spares (h : History) (i : Item) (actions : List Action) : Prop where
  notErased : .erase i.id ∉ actions
  notCleared : .clear ∉ actions
  notCrowded : ∀ earlier expression result stamp,
    earlier ++ [.add expression result stamp] <+: actions →
      (h.performAll (earlier ++ [.add expression result stamp])).countOf
        (earlier ++ [.add expression result stamp]) < h.limit

variable {h : History} {i j : Item} {a : Action} {actions before after : List Action}
  {past later : List Item} {id : Uuid} {expression : String} {result : Binary64} {stamp : Stamp}

theorem created_append (before after : List Action) :
    created (before ++ after) = created before ++ created after := List.filterMap_append

theorem created_singleton (a : Action) : created [a] = a.creates?.toList := by
  cases hc : a.creates? <;> simp [created, hc]

theorem performAll_append (h : History) (before after : List Action) :
    h.performAll (before ++ after) = (h.performAll before).performAll after := List.foldl_append

theorem performAll_concat (h : History) (actions : List Action) (a : Action) :
    h.performAll (actions ++ [a]) = (h.performAll actions).perform a := performAll_append ..

theorem add?_eq_none_iff (h : History) (expression : String) (result : Binary64) (stamp : Stamp) :
    h.add? expression result stamp = none ↔ Text.isAllBlank expression = true := by
  rw [← Text.withoutBlanks_eq_empty_iff, add?, ← String.isEmpty_iff]
  split <;> simp [*]

theorem perform_add_blank (hblank : Text.isAllBlank expression = true) (h : History)
    (result : Binary64) (stamp : Stamp) : h.perform (.add expression result stamp) = h := by
  rw [perform, (h.add?_eq_none_iff ..).mpr hblank]

theorem perform_of_creates? (hi : a.creates? = some i) (h : History) : h.perform a = h.push i := by
  cases a with
  | add expression result stamp =>
    rw [Action.creates?] at hi
    split at hi
    · cases hi
    · next hblank =>
      cases hi
      rw [perform, add?_of_isAllBlank (Bool.not_eq_true _ ▸ hblank)]
  | erase id | clear => cases hi

theorem items_push (h : History) (i : Item) : (h.push i).items = (i :: h.items).take h.limit := rfl

theorem limit_perform (h : History) (a : Action) : (h.perform a).limit = h.limit := by
  cases a with
  | add expression result stamp =>
    cases hblank : Text.isAllBlank expression with
    | true => rw [perform_add_blank hblank]
    | false => rw [perform, add?_of_isAllBlank hblank, push]
  | erase id | clear => rfl

theorem limit_performAll (h : History) (actions : List Action) :
    (h.performAll actions).limit = h.limit := by
  induction actions generalizing h with
  | nil => rfl
  | cons a rest ih => exact (ih (h.perform a)).trans (h.limit_perform a)

/-- The history holds some of the items created so far, the newest first, and not too many. -/
structure Recent (h : History) (past : List Item) : Prop where
  size : h.items.length ≤ h.limit
  sublist : h.items.Sublist past.reverse

theorem recent_empty (limit : Nat) : (empty limit).Recent [] := ⟨Nat.zero_le _, .slnil⟩

theorem Recent.push (hh : h.Recent past) (i : Item) : (h.push i).Recent (past ++ [i]) := by
  refine ⟨List.length_take_le .., (List.take_sublist ..).trans ?_⟩
  rw [List.reverse_concat]
  exact hh.sublist.cons_cons i

theorem Recent.perform (hh : h.Recent past) (a : Action) :
    (h.perform a).Recent (past ++ created [a]) := by
  rw [created_singleton]
  cases hc : a.creates? with
  | some i =>
    rw [perform_of_creates? hc]
    exact hh.push i
  | none =>
    rw [Option.toList_none, List.append_nil]
    cases a with
    | add expression result stamp =>
      have hblank : Text.isAllBlank expression = true := by simpa [Action.creates?] using hc
      rwa [perform_add_blank hblank]
    | erase id =>
      exact ⟨(List.eraseP_sublist).length_le.trans hh.size, List.eraseP_sublist.trans hh.sublist⟩
    | clear => exact ⟨Nat.zero_le _, List.nil_sublist _⟩

theorem Recent.performAll (hh : h.Recent past) (actions : List Action) :
    (h.performAll actions).Recent (past ++ created actions) := by
  induction actions generalizing h past with
  | nil => simpa [created, performAll] using hh
  | cons a rest ih =>
    have hrest := ih (hh.perform a)
    rwa [List.append_assoc, ← created_append] at hrest

theorem Recent.nodup_ids (hh : h.Recent past) (hids : (past.map Item.id).Nodup) :
    (h.items.map Item.id).Nodup := by
  refine (hh.sublist.map Item.id).nodup ?_
  rwa [List.map_reverse, List.nodup_reverse]

theorem eq_of_id (hids : (h.items.map Item.id).Nodup) (hi : i ∈ h.items) (hj : j ∈ h.items)
    (h' : j.id = i.id) : j = i := List.inj_on_of_nodup_map hids hj hi h'

theorem mem_of_sublist_append {front back first last : List Item}
    (hsub : (front ++ i :: back).Sublist (first ++ i :: last)) (hnodup : (first ++ i :: last).Nodup) :
    ∀ j ∈ front, j ∈ first := by
  have hlast : i ∉ last := (List.nodup_cons.mp (List.nodup_append.mp hnodup).2.1).1
  obtain ⟨left, right, happend, hleft, hright⟩ := List.sublist_append_iff.mp hsub
  rcases List.append_eq_append_iff.mp happend with ⟨more, rfl, -⟩ | ⟨more, rfl, rfl⟩
  · exact fun j hj => hleft.subset (List.mem_append_left _ hj)
  · cases more with
    | nil => simpa using fun j hj => hleft.subset hj
    | cons k more =>
      -- Behind `k` the element would come a second time.
      have htail : (more ++ i :: back).Sublist last := by
        rcases List.cons_sublist_cons'.mp hright with h | ⟨-, h⟩
        · exact (List.sublist_cons_self k _).trans h
        · exact h
      exact absurd (htail.subset (by simp)) hlast

theorem Recent.newer_of_append {front back : List Item} (hh : h.Recent (past ++ i :: later))
    (hnodup : (past ++ i :: later).Nodup) (hitems : h.items = front ++ i :: back) :
    ∀ j ∈ front, j ∈ later := by
  have hreverse : (past ++ i :: later).reverse = later.reverse ++ i :: past.reverse := by simp
  have hsub := hh.sublist
  rw [hitems, hreverse] at hsub
  rw [← List.nodup_reverse, hreverse] at hnodup
  simpa using mem_of_sublist_append hsub hnodup

theorem erase_items (hids : (h.items.map Item.id).Nodup) (id : Uuid) :
    (h.erase id).items = h.items.filter (·.id ≠ id) := by
  change h.items.eraseP (·.id = id) = _
  generalize h.items = items at hids
  induction items with
  | nil => rfl
  | cons i rest ih =>
    obtain ⟨hi, hrest⟩ := List.nodup_cons.mp hids
    by_cases hid : i.id = id
    · have hall : rest.filter (·.id ≠ id) = rest := by
        refine List.filter_eq_self.mpr fun j hj => decide_eq_true fun hj' => hi ?_
        rw [hid, ← hj']
        exact List.mem_map_of_mem hj
      rw [List.eraseP_cons_of_pos (by simpa using hid), List.filter_cons_of_neg (by simp [hid]), hall]
    · rw [List.eraseP_cons_of_neg (by simpa using hid),
        List.filter_cons_of_pos (by simpa using hid), ih hrest]

/-- An item that is there leaves room for fewer newer ones than the history may hold. -/
theorem Recent.countP_lt (hh : h.Recent past) (hi : i ∈ h.items) (hlater : i ∉ later) :
    h.items.countP (· ∈ later) < h.limit := by
  refine lt_of_lt_of_le (lt_of_le_of_ne List.countP_le_length fun hall => hlater ?_) hh.size
  simpa using List.countP_eq_length.mp hall i hi

/-- An addition pushes an item out exactly when it fills the history with newer ones. -/
theorem Recent.mem_push_iff (hh : h.Recent (past ++ i :: later))
    (hnodup : (past ++ i :: (later ++ [j])).Nodup) : i ∈ (h.push j).items ↔
      i ∈ h.items ∧ (h.push j).items.countP (· ∈ later ++ [j]) < h.limit := by
  have hnew : i ∉ later ++ [j] := (List.nodup_cons.mp (List.nodup_append.mp hnodup).2.1).1
  have hpush : (h.push j).Recent (past ++ i :: later ++ [j]) := hh.push j
  constructor
  · intro hi
    refine ⟨?_, hpush.countP_lt hi hnew⟩
    refine (List.mem_cons.mp (List.mem_of_mem_take hi)).resolve_left fun hij => hnew ?_
    simp [hij]
  · rintro ⟨hi, hroom⟩
    obtain ⟨front, back, hitems⟩ := List.append_of_mem hi
    have hold : (past ++ i :: later).Nodup := by
      rw [← List.cons_append, ← List.append_assoc] at hnodup
      exact (List.nodup_append.mp hnodup).1
    have hfront : ∀ k ∈ j :: front, k ∈ later ++ [j] := by
      intro k hk
      rcases List.mem_cons.mp hk with rfl | hk
      · simp
      · exact List.mem_append_left _ (hh.newer_of_append hold hitems k hk)
    rw [items_push, hitems, ← List.cons_append] at hroom ⊢
    by_contra hout
    have hfull : h.limit ≤ (j :: front).length := by
      by_contra hshort
      obtain ⟨k, hk⟩ := Nat.exists_eq_add_of_lt (Nat.lt_of_not_le hshort)
      refine hout ?_
      rw [hk, Nat.add_assoc, List.take_length_add_append]
      simp
    rw [List.take_append_of_le_length hfull, List.countP_eq_length.mpr fun k hk => decide_eq_true
      (hfront k (List.mem_of_mem_take hk)), List.length_take_of_le hfull] at hroom
    exact hroom.false

theorem Recent.mem_perform_iff (hh : h.Recent (past ++ i :: later))
    (hids : ((past ++ i :: (later ++ created [a])).map Item.id).Nodup) :
    i ∈ (h.perform a).items ↔ i ∈ h.items ∧ a ≠ .erase i.id ∧ a ≠ .clear ∧
      ∀ expression result stamp, a = .add expression result stamp →
        (h.perform a).items.countP (· ∈ later ++ created [a]) < h.limit := by
  have hnodup := hids.of_map
  have hlater : i ∉ later := fun hi =>
    (List.nodup_cons.mp (List.nodup_append.mp hnodup).2.1).1 (List.mem_append_left _ hi)
  cases a with
  | add expression result stamp =>
    rw [created_singleton] at hnodup ⊢
    cases hc : (Action.add expression result stamp).creates? with
    | none =>
      have hblank : Text.isAllBlank expression = true := by simpa [Action.creates?] using hc
      simpa [perform_add_blank hblank] using fun hi => hh.countP_lt hi hlater
    | some j =>
      rw [hc] at hnodup
      simpa [perform_of_creates? hc] using hh.mem_push_iff hnodup
  | erase id =>
    have hnone : created [Action.erase id] = [] := rfl
    rw [hnone, List.append_nil] at hids
    change i ∈ (h.erase id).items ↔ _
    rw [erase_items (hh.nodup_ids hids), List.mem_filter]
    simp [ne_comm]
  | clear =>
    change i ∈ [] ↔ _
    simp

theorem Spares.of_append (hs : h.Spares i (before ++ after)) : h.Spares i before where
  notErased hm := hs.notErased (List.mem_append_left _ hm)
  notCleared hm := hs.notCleared (List.mem_append_left _ hm)
  notCrowded _ _ _ _ hp := hs.notCrowded _ _ _ _ (hp.trans (List.prefix_append _ _))

theorem spares_concat_iff : h.Spares i (actions ++ [a]) ↔
    h.Spares i actions ∧ a ≠ .erase i.id ∧ a ≠ .clear ∧
      ∀ expression result stamp, a = .add expression result stamp →
        (h.performAll (actions ++ [a])).countOf (actions ++ [a]) < h.limit := by
  constructor
  · intro hs
    refine ⟨hs.of_append, ?_, ?_, ?_⟩
    · rintro rfl
      exact hs.notErased (by simp)
    · rintro rfl
      exact hs.notCleared (by simp)
    · rintro _ _ _ rfl
      exact hs.notCrowded actions _ _ _ List.prefix_rfl
  · rintro ⟨hs, herase, hclear, hadd⟩
    refine ⟨?_, ?_, fun earlier _ _ _ hp => ?_⟩
    · simpa [hs.notErased] using herase.symm
    · simpa [hs.notCleared] using hclear.symm
    · rcases List.prefix_concat_iff.mp hp with heq | hp
      · obtain ⟨rfl, hlast⟩ := List.append_inj' heq rfl
        obtain rfl := List.singleton_inj.mp hlast
        exact hadd _ _ _ rfl
      · exact hs.notCrowded earlier _ _ _ hp

/-- What is to become of an item that is in the history now. -/
theorem Recent.mem_performAll_iff (hh : h.Recent (past ++ [i])) (hi : i ∈ h.items)
    (hids : ((past ++ i :: created actions).map Item.id).Nodup) :
    i ∈ (h.performAll actions).items ↔ h.Spares i actions := by
  induction actions using List.reverseRecOn with
  | nil => exact iff_of_true hi ⟨List.not_mem_nil, List.not_mem_nil, by simp⟩
  | append_singleton actions a ih =>
    rw [created_append] at hids
    have hbefore : ((past ++ i :: created actions).map Item.id).Nodup := by
      rw [← List.cons_append, ← List.append_assoc, List.map_append] at hids
      exact (List.nodup_append.mp hids).1
    have hnow := hh.performAll actions
    rw [List.append_assoc, List.singleton_append] at hnow
    have hstep := hnow.mem_perform_iff hids
    rw [limit_performAll, ← created_append, ← performAll_concat] at hstep
    rw [hstep, ih hbefore, spares_concat_iff]
    rfl

theorem created_cons_of_creates? (hi : a.creates? = some i) (rest : List Action) :
    created (a :: rest) = i :: created rest := List.filterMap_cons_some hi

theorem mem_push (h : History) (i : Item) : i ∈ (h.push i).items := by
  obtain ⟨k, hk⟩ := Nat.exists_eq_succ_of_ne_zero h.limit_pos.ne'
  rw [items_push, hk]
  exact List.mem_cons_self

theorem recent_run (limit : Nat) (actions : List Action) :
    ((empty limit).performAll actions).Recent (created actions) :=
  (recent_empty limit).performAll actions

/-- An item is in the history exactly when the actions behind its creation spare it. -/
theorem mem_run_iff {limit : Nat} (hids : ((created (before ++ a :: after)).map Item.id).Nodup)
    (hi : a.creates? = some i) : i ∈ ((empty limit).performAll (before ++ a :: after)).items ↔
      ((empty limit).performAll (before ++ [a])).Spares i after := by
  have hnow := recent_run limit (before ++ [a])
  rw [created_append, created_cons_of_creates? hi] at hids hnow
  have hmem : i ∈ ((empty limit).performAll (before ++ [a])).items := by
    rw [performAll_concat, perform_of_creates? hi]
    exact mem_push _ i
  rw [← List.singleton_append, ← List.append_assoc, performAll_append]
  exact hnow.mem_performAll_iff hmem hids

theorem not_mem_run {limit : Nat} (hids : ((created (before ++ after)).map Item.id).Nodup)
    (hi : i ∈ created before) (hgone : i ∉ ((empty limit).performAll before).items) :
    i ∉ ((empty limit).performAll (before ++ after)).items := by
  obtain ⟨a, ha, hcreates⟩ := List.mem_filterMap.mp hi
  obtain ⟨earlier, rest, rfl⟩ := List.append_of_mem ha
  have hids' : ((created (earlier ++ a :: rest)).map Item.id).Nodup := by
    rw [created_append, List.map_append] at hids
    exact (List.nodup_append.mp hids).1
  rw [mem_run_iff hids' hcreates] at hgone
  rw [List.append_assoc, List.cons_append] at hids ⊢
  rw [mem_run_iff hids hcreates]
  exact fun hs => hgone hs.of_append

theorem pairwise_idxOf_reverse {items : List Item} (hnodup : items.Nodup) :
    items.reverse.Pairwise fun newer older => items.idxOf older < items.idxOf newer := by
  rw [List.pairwise_reverse, List.pairwise_iff_getElem]
  intro m n hm hn hlt
  rwa [hnodup.idxOf_getElem, hnodup.idxOf_getElem]

theorem contains_iff (h : History) (id : Uuid) :
    h.contains id = true ↔ ∃ i ∈ h.items, i.id = id := by
  simp [contains, find?]

theorem find?_eq_some_iff (hids : (h.items.map Item.id).Nodup) :
    h.find? id = some i ↔ i ∈ h.items ∧ i.id = id := by
  constructor
  · exact fun hi => ⟨mem_of_find? hi, by simpa using List.find?_some hi⟩
  · rintro ⟨hi, rfl⟩
    exact find?_of_mem hi fun j hj hsame => eq_of_id hids hi hj hsame

/-- What the operations on a history answer and do. -/
structure Answers (h : History) : Prop where
  add?_none_iff : ∀ expression result stamp,
    h.add? expression result stamp = none ↔ Text.isAllBlank expression = true
  unchanged : ∀ expression result stamp, h.add? expression result stamp = none →
    h.perform (.add expression result stamp) = h
  added : ∀ expression result stamp i h', h.add? expression result stamp = some (i, h') →
    (Action.add expression result stamp).creates? = some i ∧
      h' = h.perform (.add expression result stamp) ∧ h'.items.head? = some i
  contains_iff : ∀ id, h.contains id = true ↔ ∃ i ∈ h.items, i.id = id
  find?_iff : ∀ id i, h.find? id = some i ↔ i ∈ h.items ∧ i.id = id
  erased : ∀ id, (h.erase id).items = h.items.filter (·.id ≠ id)

theorem answers_of_nodup (hids : (h.items.map Item.id).Nodup) : h.Answers := by
  constructor
  case add?_none_iff => exact h.add?_eq_none_iff
  case unchanged =>
    intro expression result stamp hnone
    exact perform_add_blank ((h.add?_eq_none_iff ..).mp hnone) h result stamp
  case added =>
    intro expression result stamp i h' hsome
    have hblank : Text.isAllBlank expression = false := by
      by_contra hblank
      rw [(h.add?_eq_none_iff ..).mpr (Bool.eq_true_of_not_eq_false hblank)] at hsome
      cases hsome
    rw [add?_of_isAllBlank hblank] at hsome
    cases hsome
    refine ⟨by simp [Action.creates?, hblank], ?_, ?_⟩
    · rw [perform, add?_of_isAllBlank hblank]
    · rw [items_push, List.head?_take, if_neg h.limit_pos.ne', List.head?_cons]
  case contains_iff => exact h.contains_iff
  case find?_iff => exact fun id i => find?_eq_some_iff hids
  case erased => exact erase_items hids

/-- What is known of the history `h` that the actions leave of an empty one with the limit. -/
structure Chronicle (limit : Nat) (actions : List Action) (h : History) : Prop where
  limit_eq : h.limit = max limit 1
  size_le : h.size ≤ max limit 1
  created : ∀ i ∈ h.items, i ∈ created actions
  newestFirst : h.items.Pairwise fun newer older =>
    (History.created actions).idxOf older < (History.created actions).idxOf newer
  distinct : (h.items.map Item.id).Nodup
  mem_iff : ∀ before a after i, actions = before ++ a :: after → a.creates? = some i →
    (i ∈ h.items ↔ ((empty limit).performAll (before ++ [a])).Spares i after)
  gone : ∀ before after i, actions = before ++ after → i ∈ History.created before →
    i ∉ ((empty limit).performAll before).items → i ∉ h.items
  answers : h.Answers

/-- Where every item is created under an identifier of its own, a run leaves the latest items that
its later actions spare, in their order and within the limit. -/
theorem performAll_chronicle (limit : Nat) (actions : List Action)
    (hids : ((created actions).map Item.id).Nodup) :
    Chronicle limit actions ((empty limit).performAll actions) := by
  have hrecent := recent_run limit actions
  have hlimit : ((empty limit).performAll actions).limit = max limit 1 := limit_performAll ..
  have hdistinct := hrecent.nodup_ids hids
  constructor
  case limit_eq => exact hlimit
  case size_le => exact hlimit ▸ hrecent.size
  case created => exact fun i hi => by simpa using hrecent.sublist.subset hi
  case newestFirst => exact (pairwise_idxOf_reverse hids.of_map).sublist hrecent.sublist
  case distinct => exact hdistinct
  case mem_iff =>
    rintro before a after i rfl hi
    exact mem_run_iff hids hi
  case gone =>
    rintro before after i rfl hi hgone
    exact not_mem_run hids hi hgone
  case answers => exact answers_of_nodup hdistinct

def turnover : List Action :=
  [.add " 1" (.zero false) ⟨⟨1⟩, 10⟩, .add "\t" (.zero false) ⟨⟨1⟩, 20⟩,
    .add "2" (.zero false) ⟨⟨2⟩, 30⟩, .erase ⟨2⟩, .add "3" (.zero false) ⟨⟨3⟩, 40⟩,
    .add "2 + 2" (.zero false) ⟨⟨4⟩, 50⟩, .erase ⟨3⟩]

theorem performAll_chronicle_turnover :
    Chronicle 2 turnover ((empty 2).performAll turnover) ∧
      ((empty 2).performAll turnover).items = [⟨⟨4⟩, "2+2", .zero false, 50⟩] :=
  ⟨performAll_chronicle 2 turnover (by decide +kernel), by decide +kernel⟩

end Reckoner.History
