import WorkflowGraph.Proofs.Activity.Seating

/-!
# What is to be seen of a crew

The seating of a crew is read off its strands (`Crew.seating`), each of which has a group and an
index of its own (`Crew.Keyed`). Whatever happens in a crew changes the seating at one table, where
one strand is exchanged for another one or leaves, or adds a table.

Beyond what is to be seen, nobody in a crew waits for nothing (`Crew.Orderly`): a strand that waits
for a place waits where there is none, and one that is asleep waits for results that are not there.
-/

set_option autoImplicit false

namespace WorkflowGraph

/-! ## Strands at their seats -/

/-- What is to be seen of a strand at a stage. -/
def Stage.seat (rest : Activity NodeRun) : Stage → Seat
  | .due _ true => .going rest
  | .due _ false => .outside rest
  | .held => .outside rest
  | .joined group _ _ _ => .joined group rest

/-- To be woken is nothing that is to be seen. -/
theorem Stage.seat_wake (group : Nat) (turn : Turn) (rest : Activity NodeRun) (s : Stage) :
    (s.wake group turn).seat rest = s.seat rest := by
  unfold wake
  split
  · split
    · rfl
    · rfl
  · rfl

namespace Strand

/-- What is to be seen of a strand. -/
def seat (s : Strand) : Seat := s.stage.seat s.rest

/-- Whether a strand is that of a task. -/
def isAt (group index : Nat) (s : Strand) : Bool := s.group == group && s.index == index

/-- A strand that is woken if it waits for the tasks of a group. -/
def wake (group : Nat) (turn : Turn) (s : Strand) : Strand :=
  { s with stage := s.stage.wake group turn }

/-- The task of a strand. -/
def key (s : Strand) : Nat × Nat := (s.group, s.index)

theorem isAt_iff {group index : Nat} {s : Strand} :
    s.isAt group index = true ↔ s.key = (group, index) := by
  simp [isAt, key]

/-- Whether a strand that waits has a reason to. -/
def Waits (c : Crew) (s : Strand) : Prop :=
  match s.stage with
  | .due _ _ => True
  | .held => c.hasPlace s.group = false
  | .joined group _ alarm woken => alarm = none ∧ (woken = none → c.results? group = none)

theorem Waits.mono {c d : Crew} {s : Strand} (h : s.Waits c)
    (hplace : s.stage = .held → c.hasPlace s.group = false → d.hasPlace s.group = false)
    (hresults : ∀ group, c.results? group = none → d.results? group = none) : s.Waits d := by
  unfold Waits at h ⊢
  cases hstage : s.stage with
  | due => trivial
  | held =>
    rw [hstage] at h
    exact hplace hstage h
  | joined group since alarm woken =>
    rw [hstage] at h
    exact ⟨h.1, fun hwoken => hresults group (h.2 hwoken)⟩

theorem Waits.wake {c d : Crew} {s : Strand} (h : s.Waits c) (group : Nat) (turn : Turn)
    (hplace : s.stage = .held → c.hasPlace s.group = false → d.hasPlace s.group = false)
    (hresults : ∀ k, k ≠ group → c.results? k = none → d.results? k = none) :
    (s.wake group turn).Waits d := by
  unfold Waits at h
  unfold Waits Strand.wake
  cases hstage : s.stage with
  | due => trivial
  | held =>
    rw [hstage] at h
    exact hplace hstage h
  | joined k since alarm woken =>
    rw [hstage] at h
    obtain ⟨rfl, hasleep⟩ := h
    by_cases hk : k = group
    · simp only [Stage.wake, if_pos hk]
      refine ⟨trivial, fun hwoken => ?_⟩
      cases woken with
      | none => cases hwoken
      | some turn => cases hwoken
    · simp only [Stage.wake, if_neg hk]
      exact ⟨trivial, fun hwoken => hresults k hk (hasleep hwoken)⟩

end Strand

namespace Crew

/-- There is no waiting for a group that has not been started. -/
theorem lt_of_results?_eq_none {c : Crew} {group : Nat} (h : c.results? group = none) :
    group < c.groups.length := by
  unfold results? at h
  split at h
  · next hgroup => exact (List.getElem?_eq_some_iff.1 hgroup).1
  · cases h

theorem results?_congr {c d : Crew} {group : Nat} (h : d.groups[group]? = c.groups[group]?) :
    d.results? group = c.results? group := by
  unfold results?
  rw [h]

theorem hasPlace_congr {c d : Crew} {group : Nat} (h : d.groups[group]? = c.groups[group]?) :
    d.hasPlace group = c.hasPlace group := by
  unfold hasPlace
  rw [h]

/-- What is to be seen of a crew. -/
def seating (c : Crew) : Seating := fun group =>
  ⟨c.groups[group]?, fun index => (c.strands.find? (Strand.isAt group index)).map Strand.seat⟩

/-- Whether every task has one strand at most, and the groups of all of them are there. -/
structure Keyed (c : Crew) : Prop where
  keys : (c.strands.map Strand.key).Nodup
  known : ∀ s ∈ c.strands, s.group < c.groups.length

/-- Whether nobody in a crew waits for nothing. -/
structure Orderly (c : Crew) : Prop extends Keyed c where
  waits : ∀ s ∈ c.strands, s.Waits c

variable {c : Crew} {front back : List Strand} {s : Strand}

/-- The others are not those of the task of a strand between them. -/
theorem find?_isAt_beside (hkeys : ((front ++ s :: back).map Strand.key).Nodup)
    {group index : Nat} (hkey : s.key = (group, index)) :
    (front ++ back).find? (Strand.isAt group index) = none := by
  rw [(List.perm_middle.map Strand.key).nodup_iff, List.map_cons, List.nodup_cons] at hkeys
  rw [List.find?_eq_none]
  intro a ha hat
  rw [Strand.isAt_iff, ← hkey] at hat
  exact hkeys.1 (hat ▸ List.mem_map_of_mem ha)

/-- A strand between others is the one of its task. -/
theorem find?_isAt_between (hkeys : ((front ++ s :: back).map Strand.key).Nodup)
    (group index : Nat) :
    (front ++ s :: back).find? (Strand.isAt group index) =
      if s.key = (group, index) then some s
      else (front ++ back).find? (Strand.isAt group index) := by
  split
  · next hkey =>
    have hbeside := find?_isAt_beside hkeys hkey
    rw [List.find?_append, Option.or_eq_none_iff] at hbeside
    rw [List.find?_append, hbeside.1, Option.none_or,
      List.find?_cons_of_pos (Strand.isAt_iff.2 hkey)]
  · next hkey =>
    have hnot : ¬ s.isAt group index = true := fun hat => hkey (Strand.isAt_iff.1 hat)
    rw [List.find?_append, List.find?_cons_of_neg hnot, ← List.find?_append]

/-- No strand is that of a task of another group. -/
theorem find?_isAt_of_forall_ne {strands : List Strand} {group : Nat} (index : Nat)
    (h : ∀ s ∈ strands, s.group ≠ group) : strands.find? (Strand.isAt group index) = none := by
  rw [List.find?_eq_none]
  intro s hs hat
  exact h s hs (congrArg Prod.fst (Strand.isAt_iff.1 hat))

theorem exists_of_seats {k index : Nat} {seat : Seat}
    (h : (c.seating k).seats index = some seat) :
    ∃ s ∈ c.strands, s.key = (k, index) ∧ s.seat = seat := by
  obtain ⟨s, hfind, hseat⟩ := Option.map_eq_some_iff.1 h
  exact ⟨s, List.mem_of_find?_eq_some hfind, Strand.isAt_iff.1 (List.find?_some hfind), hseat⟩

theorem find?_isAt_of_mem {strands : List Strand} (hkeys : (strands.map Strand.key).Nodup)
    (hs : s ∈ strands) : strands.find? (Strand.isAt s.group s.index) = some s := by
  obtain ⟨front, back, rfl⟩ := List.append_of_mem hs
  rw [find?_isAt_between hkeys, if_pos (show s.key = (s.group, s.index) from rfl)]

theorem seats_of_mem (hkeys : (c.strands.map Strand.key).Nodup) (hs : s ∈ c.strands) :
    (c.seating s.group).seats s.index = some s.seat :=
  congrArg (Option.map Strand.seat) (find?_isAt_of_mem hkeys hs)

/-- What a strand waits for is to be seen only as far as its seat is another one. -/
theorem seating_restage {other : Strand} {groups : List Group} {m n : Nat}
    (hkey : other.key = s.key) (hseat : other.seat = s.seat) :
    Crew.seating ⟨front ++ other :: back, groups, m⟩ =
      Crew.seating ⟨front ++ s :: back, groups, n⟩ := by
  funext group
  refine Table.ext rfl (funext fun index => ?_)
  have hsame : other.isAt group index = s.isAt group index := by
    rw [Bool.eq_iff_iff, Strand.isAt_iff, Strand.isAt_iff, hkey]
  unfold seating
  dsimp only
  rw [List.find?_append, List.find?_append]
  cases front.find? (Strand.isAt group index) with
  | some _ => rfl
  | none =>
    rw [Option.none_or, Option.none_or, List.find?_cons, List.find?_cons, hsame]
    split
    · rw [Option.map_some, Option.map_some, hseat]
    · rfl

/-! ## Who can go on -/

theorem turn?_of_pick?_eq_none {clock : Nat} {strands : List Strand}
    (h : pick? clock strands = none) : ∀ s ∈ strands, s.stage.turn? clock = none := by
  induction strands with
  | nil =>
    rintro s ⟨⟩
  | cons t rest ih =>
    unfold pick? at h
    split at h
    · next ht hrest => exact List.forall_mem_cons.2 ⟨ht, ih hrest⟩
    · cases h
    · cases h
    · split at h
      · cases h
      · cases h

theorem next?_of_next?_eq_none {clock : Nat} {strands : List Strand}
    (h : next? clock strands = none) : ∀ s ∈ strands, s.stage.next? clock = none := by
  induction strands with
  | nil =>
    rintro s ⟨⟩
  | cons t rest ih =>
    unfold next? at h
    split at h
    · next ht => exact List.forall_mem_cons.2 ⟨ht, ih h⟩
    · cases h
    · cases h

/-- Where nobody goes on, now or later, nobody in an orderly crew can. -/
theorem Orderly.stuck (h : c.Orderly) {clock : Nat} (hpick : pick? clock c.strands = none)
    (hnext : next? clock c.strands = none) (group : Nat) :
    Seating.Stuck c.seating (c.seating group) := by
  intro index seat hseat
  obtain ⟨s, hs, hkey, rfl⟩ := exists_of_seats hseat
  have hwaits := h.waits s hs
  have hturn := turn?_of_pick?_eq_none hpick s hs
  have hlater := next?_of_next?_eq_none hnext s hs
  unfold Strand.Waits at hwaits
  unfold Strand.seat Stage.seat
  cases hstage : s.stage with
  | due turn begun =>
    rw [hstage] at hturn hlater
    simp only [Stage.next?, ite_eq_right_iff, reduceCtorEq, imp_false, Nat.not_lt] at hlater
    simp only [Stage.turn?, Turn.come?, Option.filter_eq_none_iff, Option.some.injEq,
      decide_eq_true_eq, Nat.not_le, forall_eq'] at hturn
    omega
  | held =>
    rw [hstage] at hwaits
    refine .inl ⟨s.rest, rfl, fun g hg => ?_⟩
    have hgroup : s.group = group := congrArg Prod.fst hkey
    have hhere : c.groups[group]? = some g := hg
    simpa [hasPlace, hgroup, hhere] using hwaits
  | joined waits since alarm woken =>
    rw [hstage] at hwaits hturn
    obtain ⟨rfl, hasleep⟩ := hwaits
    refine .inr ⟨waits, s.rest, rfl, fun g hg => ?_⟩
    have hwoken : woken = none := by
      cases woken with
      | none => rfl
      | some turn => cases hturn
    have hresults := hasleep hwoken
    have hhere : c.groups[waits]? = some g := hg
    simpa [results?, hhere] using hresults

/-! ## One strand is exchanged -/

/-- Whether a crew has become another one where a strand has been exchanged for another one of its
task, or has left, and strands of new groups have come. -/
structure Exchanged (c d : Crew) (s : Strand) (place : Option Strand) (started : List Strand) :
    Prop where
  strands : ∃ front back, c.strands = front ++ s :: back ∧
    d.strands = front ++ started ++ place.toList ++ back
  same : ∀ other ∈ place, other.key = s.key
  more : c.groups.length ≤ d.groups.length
  new : ∀ x ∈ started, c.groups.length ≤ x.group ∧ x.group < d.groups.length
  distinct : (started.map Strand.key).Nodup

namespace Exchanged

variable {d : Crew} {place : Option Strand} {started : List Strand}

theorem of_key {other : Strand} (hc : c.strands = front ++ s :: back) (hkey : other.key = s.key)
    (hd : d.strands = front ++ other :: back) (hmore : c.groups.length ≤ d.groups.length) :
    Exchanged c d s (some other) [] := by
  refine ⟨⟨front, back, hc, by simp [hd]⟩, ?_, hmore, ?_, List.nodup_nil⟩
  · rintro _ ⟨⟩
    exact hkey
  · rintro _ ⟨⟩

theorem of_leave (hc : c.strands = front ++ s :: back) (hd : d.strands = front ++ back)
    (hmore : c.groups.length ≤ d.groups.length) : Exchanged c d s none [] := by
  refine ⟨⟨front, back, hc, by simp [hd]⟩, ?_, hmore, ?_, List.nodup_nil⟩
  · rintro _ ⟨⟩
  · rintro _ ⟨⟩

theorem keyed (h : Exchanged c d s place started) (hc : c.Keyed) : d.Keyed := by
  obtain ⟨front, back, hbefore, hafter⟩ := h.strands
  have hkeys := hc.keys
  have hknown := hc.known
  rw [hbefore] at hkeys hknown
  have hstay : ((front ++ (place.toList ++ back)).map Strand.key).Sublist
      ((front ++ s :: back).map Strand.key) := by
    cases hplace : place with
    | none => exact ((List.sublist_cons_self s back).append_left front).map _
    | some other => simp [h.same other (by rw [hplace]; rfl)]
  have hperm : (front ++ started ++ place.toList ++ back).Perm
      (started ++ (front ++ (place.toList ++ back))) := by
    have hswap : (front ++ started).Perm (started ++ front) := List.perm_append_comm
    simpa only [List.append_assoc] using hswap.append_right (place.toList ++ back)
  have hlow (x : Strand) (hx : x ∈ front ++ (place.toList ++ back)) :
      x.group < c.groups.length := by
    obtain ⟨y, hy, hkey⟩ := List.mem_map.1 (hstay.subset (List.mem_map_of_mem hx))
    have hgroup : y.group = x.group := congrArg Prod.fst hkey
    exact hgroup ▸ hknown y hy
  refine ⟨?_, fun x hx => ?_⟩
  · rw [hafter, (hperm.map Strand.key).nodup_iff, List.map_append, List.nodup_append]
    refine ⟨h.distinct, hstay.nodup hkeys, ?_⟩
    rintro _ hnew _ hold rfl
    obtain ⟨x, hx, hxkey⟩ := List.mem_map.1 hnew
    obtain ⟨y, hy, hykey⟩ := List.mem_map.1 hold
    have hgroup : x.group = y.group := congrArg Prod.fst (hxkey.trans hykey.symm)
    have := (h.new x hx).1
    have := hlow y hy
    omega
  · rw [hafter, hperm.mem_iff] at hx
    rcases List.mem_append.1 hx with hx | hx
    · exact (h.new x hx).2
    · exact Nat.lt_of_lt_of_le (hlow x hx) h.more

/-- At a table that has been there, only the task of the strand that is exchanged has changed its
place. -/
theorem seats (h : Exchanged c d s place started) (hc : c.Keyed) {k : Nat}
    (hk : k < c.groups.length) (index : Nat) :
    (d.seating k).seats index =
      if s.key = (k, index) then place.map Strand.seat else (c.seating k).seats index := by
  obtain ⟨front, back, hbefore, hafter⟩ := h.strands
  have hkeys := hc.keys
  rw [hbefore] at hkeys
  have hstarted : started.find? (Strand.isAt k index) = none :=
    find?_isAt_of_forall_ne index fun x hx hgroup => by
      have := (h.new x hx).1
      omega
  unfold seating
  dsimp only
  rw [hbefore, hafter, find?_isAt_between hkeys]
  cases hplace : place with
  | none =>
    have hleft : (front ++ started ++ Option.toList none ++ back).find? (Strand.isAt k index) =
        (front ++ back).find? (Strand.isAt k index) := by
      simp only [Option.toList_none, List.append_nil, List.find?_append, hstarted, Option.or_none]
    rw [hleft]
    split
    · next hkey => rw [find?_isAt_beside hkeys hkey, Option.map_none]
    · rfl
  | some other =>
    have hother : other.key = s.key := h.same other hplace
    have hleft : (front ++ started ++ Option.toList (some other) ++ back).find?
        (Strand.isAt k index) = (front ++ other :: back).find? (Strand.isAt k index) := by
      simp only [Option.toList_some, List.append_assoc, List.cons_append, List.nil_append,
        List.find?_append, hstarted, Option.none_or]
    have hkeys' : ((front ++ other :: back).map Strand.key).Nodup := by
      simpa only [List.map_append, List.map_cons, hother] using hkeys
    rw [hleft, find?_isAt_between hkeys', hother]
    split
    · rfl
    · rfl

/-- At a new table there are those who have come. -/
theorem seats_new (h : Exchanged c d s place started) (hc : c.Keyed) {k : Nat}
    (hk : c.groups.length ≤ k) (index : Nat) :
    (d.seating k).seats index = (started.find? (Strand.isAt k index)).map Strand.seat := by
  obtain ⟨front, back, hbefore, hafter⟩ := h.strands
  have hknown := hc.known
  rw [hbefore] at hknown
  have hnone (strands : List Strand) (hlow : ∀ x ∈ strands, x.group < c.groups.length) :
      strands.find? (Strand.isAt k index) = none :=
    find?_isAt_of_forall_ne index fun x hx hgroup => by
      have := hlow x hx
      omega
  have hfront := hnone front fun x hx => hknown x (List.mem_append_left _ hx)
  have hback := hnone back fun x hx =>
    hknown x (List.mem_append_right _ (List.mem_cons_of_mem s hx))
  have hplace := hnone place.toList fun x hx => by
    have hgroup : x.group = s.group := congrArg Prod.fst (h.same x (Option.mem_toList.1 hx))
    exact hgroup ▸ hknown s (List.mem_append_right _ (List.mem_cons_self ..))
  unfold seating
  dsimp only
  simp only [hafter, List.find?_append, hfront, hback, hplace, Option.none_or, Option.or_none]

theorem mem_before (h : Exchanged c d s place started) : s ∈ c.strands := by
  obtain ⟨front, back, hbefore, _⟩ := h.strands
  rw [hbefore]
  exact List.mem_append_right _ (List.mem_cons_self ..)

/-- Everybody has been there before, or has come. -/
theorem mem (h : Exchanged c d s place started) {x : Strand} (hx : x ∈ d.strands) :
    (∃ y ∈ c.strands, y.key = x.key) ∨ x ∈ started := by
  obtain ⟨front, back, hbefore, hafter⟩ := h.strands
  rw [hafter] at hx
  rw [hbefore]
  simp only [List.mem_append] at hx
  rcases hx with ((hx | hx) | hx) | hx
  · exact .inl ⟨x, List.mem_append_left _ hx, rfl⟩
  · exact .inr hx
  · refine .inl ⟨s, List.mem_append_right _ (List.mem_cons_self ..), ?_⟩
    exact (h.same x (Option.mem_toList.1 hx)).symm
  · exact .inl ⟨x, List.mem_append_right _ (List.mem_cons_of_mem s hx), rfl⟩

theorem lt_of_seats (h : Exchanged c d s place []) (hc : c.Keyed) {k index : Nat} {seat : Seat}
    (hseat : (d.seating k).seats index = some seat) : k < c.groups.length := by
  obtain ⟨x, hx, hkey, _⟩ := exists_of_seats hseat
  rcases h.mem hx with ⟨y, hy, hsame⟩ | hnew
  · have hgroup : y.group = k := congrArg Prod.fst (hsame.trans hkey)
    exact hgroup ▸ hc.known y hy
  · cases hnew

theorem seating_of_ne (h : Exchanged c d s place started) (hc : c.Keyed) {k : Nat}
    (hk : k < c.groups.length) (hne : k ≠ s.group) (hgroup : d.groups[k]? = c.groups[k]?) :
    d.seating k = c.seating k := by
  refine Table.ext hgroup (funext fun index => ?_)
  rw [h.seats hc hk, if_neg]
  intro hkey
  exact hne (congrArg Prod.fst hkey).symm

theorem seating_self (h : Exchanged c d s place started) (hc : c.Keyed) {f : Group → Group}
    (hs : s.group < c.groups.length) (hgroup : d.groups[s.group]? = (c.groups[s.group]?).map f) :
    d.seating s.group =
      ((c.seating s.group).seat s.index (place.map Strand.seat)).modify f := by
  refine Table.ext hgroup (funext fun index => ?_)
  rw [h.seats hc hs, Table.seats_modify]
  by_cases hindex : index = s.index
  · subst hindex
    rw [if_pos (show s.key = (s.group, s.index) from rfl), Table.seats_seat_self]
  · rw [Table.seats_seat_of_ne _ hindex, if_neg]
    intro hkey
    exact hindex (congrArg Prod.snd hkey).symm

end Exchanged

/-! ## Tasks are started -/

/-- The strands of the tasks of a new group. -/
def begun (c : Crew) (clock count : Nat) (task : Fin count → Activity NodeRun) : List Strand :=
  List.ofFn fun i => ⟨c.groups.length, i, .due ⟨clock, c.count + i⟩ false, task i⟩

section Start

variable {clock count : Nat} {task : Fin count → Activity NodeRun}

theorem group_of_mem_begun (hs : s ∈ c.begun clock count task) : s.group = c.groups.length := by
  obtain ⟨i, rfl⟩ := List.mem_ofFn.1 hs
  rfl

theorem nodup_begun : ((c.begun clock count task).map Strand.key).Nodup := by
  unfold begun
  rw [List.map_ofFn, List.nodup_ofFn]
  intro i j hij
  exact Fin.ext (congrArg Prod.snd hij)

theorem find?_begun (i : Fin count) :
    ((c.begun clock count task).find? (Strand.isAt c.groups.length i)).map Strand.seat =
      some (.outside (task i)) := by
  have hmem : (⟨c.groups.length, i, .due ⟨clock, c.count + i⟩ false, task i⟩ : Strand) ∈
      c.begun clock count task := List.mem_ofFn.2 ⟨i, rfl⟩
  rw [find?_isAt_of_mem nodup_begun hmem]
  rfl

theorem lt_of_find?_begun {group index : Nat} {seat : Seat}
    (h : ((c.begun clock count task).find? (Strand.isAt group index)).map Strand.seat = some seat) :
    group = c.groups.length ∧ index < count := by
  obtain ⟨s, hfind, _⟩ := Option.map_eq_some_iff.1 h
  have hkey := Strand.isAt_iff.1 (List.find?_some hfind)
  obtain ⟨i, rfl⟩ := List.mem_ofFn.1 (List.mem_of_find?_eq_some hfind)
  have hindex : i.val = index := congrArg Prod.snd hkey
  exact ⟨(congrArg Prod.fst hkey).symm, hindex ▸ i.isLt⟩

end Start

/-- Whoever waits while groups are added has still a reason to. -/
theorem waits_of_append {d : Crew} (h : s.Waits c) (hs : s.group < c.groups.length)
    (hgroups : ∃ more, d.groups = c.groups ++ more) : s.Waits d := by
  obtain ⟨more, hmore⟩ := hgroups
  have hsame {k : Nat} (hk : k < c.groups.length) : d.groups[k]? = c.groups[k]? := by
    rw [hmore, List.getElem?_append_left hk]
  refine h.mono (fun _ hfull => ?_) fun k hnone => ?_
  · rw [hasPlace_congr (hsame hs), hfull]
  · rw [results?_congr (hsame (lt_of_results?_eq_none hnone)), hnone]

/-- Whoever waits while a place is taken has still a reason to. -/
theorem waits_takePlace (h : s.Waits c) (group : Nat) : s.Waits (c.takePlace group) := by
  have hself : (c.takePlace group).groups[group]? =
      (c.groups[group]?).map fun g => { g with free := g.free - 1 } :=
    List.getElem?_modify_eq _ _ _
  have hothers {k : Nat} (hk : group ≠ k) : (c.takePlace group).groups[k]? = c.groups[k]? :=
    List.getElem?_modify_ne _ _ hk
  refine h.mono (fun _ hfull => ?_) fun k hnone => ?_
  · by_cases hk : group = s.group
    · subst hk
      unfold hasPlace at hfull ⊢
      rw [hself, Option.any_map]
      cases hg : c.groups[s.group]? with
      | none => rfl
      | some g =>
        rw [hg] at hfull
        have hfree : g.free = 0 := by simpa using hfull
        simp [hfree]
    · rw [hasPlace_congr (hothers hk), hfull]
  · by_cases hk : group = k
    · subst hk
      unfold results? at hnone ⊢
      rw [hself]
      cases hg : c.groups[group]? with
      | none =>
        rw [hg] at hnone
        cases hnone
      | some g =>
        rw [hg] at hnone
        exact hnone
    · rw [results?_congr (hothers hk), hnone]

/-! ## A task is over -/

theorem seating_wake (c : Crew) (group count : Nat) (turn : Turn) :
    Crew.seating ⟨c.strands.map (Strand.wake group turn), c.groups, count⟩ = c.seating := by
  funext k
  refine Table.ext rfl (funext fun index => ?_)
  unfold seating
  dsimp only
  rw [List.find?_map, Option.map_map]
  exact Option.map_congr fun s _ => s.stage.seat_wake group turn s.rest

theorem key_wake (group : Nat) (turn : Turn) (strands : List Strand) :
    (strands.map (Strand.wake group turn)).map Strand.key = strands.map Strand.key := by
  rw [List.map_map]
  rfl

/-- Where somebody waits for a place, the first one of them gets it. -/
theorem seat_eq {group : Nat} (turn : Turn) {strands : List Strand}
    (h : strands.any (isHeld group) = true) : ∃ front s back, strands = front ++ s :: back ∧
      s.stage = .held ∧ s.group = group ∧
        seat group turn strands = front ++ { s with stage := .due turn true } :: back := by
  induction strands with
  | nil => cases h
  | cons t rest ih =>
    unfold seat
    cases ht : isHeld group t with
    | true =>
      rw [if_pos rfl]
      unfold isHeld at ht
      split at ht
      · next hstage => exact ⟨[], t, rest, rfl, hstage, by simpa using ht, rfl⟩
      · cases ht
    | false =>
      rw [List.any_cons, ht, Bool.false_or] at h
      obtain ⟨front, s, back, hrest, hstage, hgroup, hseat⟩ := ih h
      rw [if_neg (by simp)]
      exact ⟨t :: front, s, back, by rw [hrest]; rfl, hstage, hgroup, by rw [hseat]; rfl⟩

/-- What a crew becomes when a task is over: its place is free, or somebody has taken it who has
waited for it, and those who wait for the group are woken. -/
inductive Finished (c : Crew) (group index : Nat) (run : NodeRun) : Crew → Prop where
  | free (turn : Turn) (count : Nat)
    (nobody : ∀ s ∈ c.strands, s.stage = .held → s.group ≠ group) :
    Finished c group index run ⟨c.strands.map (Strand.wake group turn), c.groups.modify group
      fun g => { g with free := g.free + 1, runs := (index, run) :: g.runs }, count⟩
  | taken {front back : List Strand} {s : Strand} (now turn : Turn) (count : Nat)
    (strands : c.strands = front ++ s :: back) (stage : s.stage = .held) (same : s.group = group) :
    Finished c group index run
      ⟨(front ++ { s with stage := .due now true } :: back).map (Strand.wake group turn),
        c.groups.modify group fun g => { g with runs := (index, run) :: g.runs }, count⟩

/-- Whoever waits when a task is over has still a reason to, or is woken. -/
theorem Finished.waits {d e : Crew} {group index : Nat} {run : NodeRun}
    (h : d.Finished group index run e) (hgroups : ∃ more, d.groups = c.groups ++ more)
    (hc : ∀ s ∈ d.strands, s.Waits c ∧ s.group < c.groups.length) : ∀ s ∈ e.strands, s.Waits e := by
  obtain ⟨more, hmore⟩ := hgroups
  have hsame {k : Nat} (hk : k < c.groups.length) (hne : k ≠ group) {f : Group → Group} :
      (d.groups.modify group f)[k]? = c.groups[k]? := by
    rw [List.getElem?_modify_ne _ _ hne.symm, hmore, List.getElem?_append_left hk]
  have hresults {e : Crew} {f : Group → Group} (he : e.groups = d.groups.modify group f) (k : Nat)
      (hk : k ≠ group) (hnone : c.results? k = none) : e.results? k = none := by
    rw [results?_congr (he ▸ hsame (lt_of_results?_eq_none hnone) hk), hnone]
  cases h with
  | free turn count hnobody =>
    intro s hs
    obtain ⟨x, hx, rfl⟩ := List.mem_map.1 hs
    obtain ⟨hwaits, hlt⟩ := hc x hx
    refine hwaits.wake group turn (fun hstage hfull => ?_) (hresults rfl)
    rw [hasPlace_congr (hsame hlt (hnobody x hx hstage)), hfull]
  | @taken front back waiting now turn count hstrands hstage hgroup =>
    intro s hs
    obtain ⟨x, hx, rfl⟩ := List.mem_map.1 hs
    rw [List.perm_middle.mem_iff, List.mem_cons] at hx
    rcases hx with rfl | hx
    · exact trivial
    · have hd : x ∈ d.strands := by
        rw [hstrands, List.perm_middle.mem_iff]
        exact List.mem_cons_of_mem _ hx
      obtain ⟨hwaits, hlt⟩ := hc x hd
      refine hwaits.wake group turn (fun hstage hfull => ?_) (hresults rfl)
      by_cases hne : x.group = group
      · unfold hasPlace at hfull ⊢
        rw [← hne, List.getElem?_modify_eq, Option.map_eq_map, Option.any_map, hmore,
          List.getElem?_append_left hlt]
        exact hfull
      · rw [hasPlace_congr (hsame hlt hne), hfull]

theorem finished_finish (c : Crew) (clock group index : Nat) (run : NodeRun) :
    Finished c group index run (c.finish clock group index run) := by
  unfold finish leavePlace
  dsimp only
  split
  · next hheld =>
    obtain ⟨front, s, back, hsplit, hstage, hgroup, hseat⟩ := seat_eq ⟨clock, c.count⟩ hheld
    have hfinished : Finished c group index run _ :=
      .taken ⟨clock, c.count⟩ ⟨clock, c.count + 1⟩ (c.count + 1 + 1) hsplit hstage hgroup
    rw [← hseat] at hfinished
    exact hfinished
  · next hheld =>
    have hnobody : ∀ s ∈ c.strands, s.stage = .held → s.group ≠ group := by
      rintro s hs hstage rfl
      refine hheld (List.any_eq_true.2 ⟨s, hs, ?_⟩)
      unfold isHeld
      rw [hstage]
      exact beq_self_eq_true _
    have hgroups : (c.groups.modify group fun g => { g with runs := (index, run) :: g.runs }).modify
        group (fun g => { g with free := g.free + 1 }) = c.groups.modify group fun g =>
          { g with free := g.free + 1, runs := (index, run) :: g.runs } :=
      List.modify_modify_eq _ _ _ _
    have hfinished : Finished c group index run _ := .free ⟨clock, c.count⟩ (c.count + 1) hnobody
    rw [← hgroups] at hfinished
    exact hfinished

end Crew

end WorkflowGraph
