import WorkflowGraph.Proofs.Activity.Crew
import WorkflowGraph.Proofs.Activity.Yields
import WorkflowGraph.Proofs.Graph.Discipline

/-!
# Carrying out an activity is one of its schedules

What a crew does in a world is a schedule of what it shows: a strand that takes its turn makes some
steps of its task (`Crew.Presents.turn`), and the clock only says whose turn it is. Since nobody in
an orderly crew waits for nothing, tasks go on until all of them are over. So an activity that waits
for its tasks for as long as it takes comes to what one of its schedules comes to
(`Activity.Patient.run`).
-/

set_option autoImplicit false

namespace WorkflowGraph

open Activity

variable {α β : Type} {host : Host Unit}

/-- A host that remembers nothing answers in every world in the same way. -/
theorem Call.answer_eq_reply (host : Host Unit) (w : World Unit) (c : Call) :
    c.answer host w =
      ((c.reply host w.storage).1, { w with storage := (c.reply host w.storage).2 }) := by
  cases c <;> rfl

/-! ## One turn -/

/-- Whether an activity has come from a world to its halt and the world there, in some steps of a
schedule. It has started no tasks but those that it waits for. -/
inductive Activity.Came (host : Host Unit) (w : World Unit) (p : Activity α) :
    Halt α × World Unit → Prop where
  | finished {a : α} {v : World Unit} {steps : Nat} {calls : List Call}
    (schedule : Underway.Schedule host steps w.storage (.going p) calls v.storage
      (.going (.done a))) (strands : v.crew.strands = [])
    (groups : ∃ more, v.crew.groups = w.crew.groups ++ more) : Came host w p (.finished a, v)
  | paused {span : Nat} {rest : Activity α} {v : World Unit} {steps : Nat} {calls : List Call}
    (schedule : Underway.Schedule host steps w.storage (.going p) calls v.storage (.going rest))
    (patient : rest.Patient) (strands : v.crew.strands = [])
    (groups : ∃ more, v.crew.groups = w.crew.groups ++ more) : Came host w p (.paused span rest, v)
  | joined {c : Crew} {clock limit count : Nat} {task : Fin count → Activity NodeRun}
    {next : List NodeRun → Activity α} {v : World Unit} {steps : Nat} {calls : List Call}
    (schedule : Underway.Schedule host steps w.storage (.going p) calls v.storage
      (.joined limit count (fun _ => false) (fun i => .going (task i)) next))
    (strands : c.strands = []) (groups : ∃ more, c.groups = w.crew.groups ++ more)
    (least : 1 ≤ limit) (crowded : 0 < count) (tasks : ∀ i, (task i).Patient)
    (onward : ∀ runs, (next runs).Patient) (crew : v.crew = (c.start clock limit count task).2) :
    Came host w p (.joined c.groups.length none
      (.join c.groups.length none fun runs _ => next (runs.getD [])), v)

/-- An activity that has made some steps comes from where it has begun. -/
theorem Activity.Came.after {w v : World Unit} {p q : Activity α} {r : Halt α × World Unit}
    {steps : Nat} {calls : List Call}
    (hschedule : Underway.Schedule host steps w.storage (.going p) calls v.storage (.going q))
    (hgroups : ∃ more, v.crew.groups = w.crew.groups ++ more) (h : Came host v q r) :
    Came host w p r := by
  obtain ⟨first, hfirst⟩ := hgroups
  have hall {groups : List Group} (h : ∃ more, groups = v.crew.groups ++ more) :
      ∃ more, groups = w.crew.groups ++ more := by
    obtain ⟨more, hmore⟩ := h
    exact ⟨first ++ more, by rw [hmore, hfirst, List.append_assoc]⟩
  cases h with
  | finished schedule strands groups =>
    exact .finished (hschedule.trans schedule) strands (hall groups)
  | paused schedule patient strands groups =>
    exact .paused (hschedule.trans schedule) patient strands (hall groups)
  | joined schedule strands groups least crowded tasks onward crew =>
    exact .joined (hschedule.trans schedule) strands (hall groups) least crowded tasks onward crew

/-- A group that has just been started has its results if it has no tasks. -/
theorem Crew.results?_start (c : Crew) (clock limit count : Nat)
    (task : Fin count → Activity NodeRun) :
    (c.start clock limit count task).2.results? (c.start clock limit count task).1 =
      if count = 0 then some [] else none := by
  have hhere : (c.groups ++ [(⟨limit, count, []⟩ : Group)])[c.groups.length]? =
      some ⟨limit, count, []⟩ := by simp
  unfold Crew.start Crew.results?
  dsimp only
  rw [hhere]
  unfold Group.results?
  dsimp only
  cases count with
  | zero => rfl
  | succ count => rfl

/-- **A patient activity goes on as in a schedule.** By induction on the activity. -/
theorem Activity.Patient.advance {p : Activity α} (hp : p.Patient) (host : Host Unit)
    (w : World Unit) (hw : w.crew.strands = []) : Came host w p (p.advance host w) := by
  have hnone (w : World Unit) : ∃ more, w.crew.groups = w.crew.groups ++ more :=
    ⟨[], (List.append_nil _).symm⟩
  induction hp generalizing w with
  | done => exact .finished .none hw (hnone w)
  | wait h ih =>
    unfold Activity.advance
    split
    · exact .after (.of_step .wait) (hnone w) (ih w hw)
    · exact .paused (.of_step .wait) h hw (hnone w)
  | @ask _ c rest h ih =>
    unfold Activity.advance
    rw [c.answer_eq_reply]
    exact .after (v := { w with storage := (c.reply host w.storage).2 }) (.of_step .ask) (hnone w)
      (ih _ _ hw)
  | @fork _ limit count task next hlimit htask hnext _ ih =>
    have hresults := w.crew.results?_start w.clock limit count task
    unfold Activity.advance
    dsimp only
    unfold Activity.advance
    rw [hresults]
    cases count with
    | zero =>
      rw [if_pos rfl]
      refine .after (.step .start (.of_step (.join (fun i => i.elim0) fun i => i.elim0)))
        (v := { w with crew := (w.crew.start w.clock limit 0 task).2 }) ⟨_, rfl⟩ ?_
      exact ih _ _ (by simp [Crew.start, hw])
    | succ count =>
      rw [if_neg (Nat.succ_ne_zero count)]
      exact .joined (.of_step .start) hw (hnone w) hlimit (Nat.succ_pos count) htask hnext rfl

/-! ## What a crew presents -/

/-- Whether a crew shows an activity that waits for one of some groups, with what is under way in
it, and nobody belongs to another group. -/
structure Crew.Presents (c : Crew) (G : Nat → Prop) (join? : Option Nat) (p : Activity α)
    (u : Underway α) : Prop where
  keyed : c.Keyed
  shows : c.seating.Shows G join? p u
  known : ∀ k, G k → k < c.groups.length
  all : ∀ s ∈ c.strands, G s.group

/-- Whether some steps of a schedule lead to what a crew presents. -/
inductive Crew.Reached (host : Host Unit) (c : Crew) (join? : Option Nat) (p : Activity α)
    (s t : Storage) (u : Underway α) : Prop where
  | intro (G : Nat → Prop) (w : Underway α) (steps : Nat) (calls : List Call)
    (schedule : Underway.Schedule host steps s u calls t w) (presents : c.Presents G join? p w)

namespace Crew

variable {c d e : Crew} {G : Nat → Prop} {join? : Option Nat} {p : Activity α} {u : Underway α}
  {r t v : Storage} {s : Strand} {place : Option Strand} {started : List Strand}

theorem Reached.of_presents (h : c.Presents G join? p u) : c.Reached host join? p r r u :=
  .intro G u 0 [] .none h

theorem Reached.trans (h : c.Reached host join? p r t u)
    (hlater : ∀ {G : Nat → Prop} {w : Underway α}, c.Presents G join? p w →
      d.Reached host join? p t v w) : d.Reached host join? p r v u := by
  obtain ⟨G, w, steps, calls, hschedule, hpresents⟩ := h
  obtain ⟨H, x, more, others, hmore, hd⟩ := hlater hpresents
  exact .intro H x _ _ (hschedule.trans hmore) hd

/-- What leads on at the table of a strand that is exchanged leads on for the crew. -/
theorem Presents.exchanged (h : c.Presents G join? p u)
    (he : c.Exchanged d s place started)
    (hothers : ∀ k, k < c.groups.length → k ≠ s.group → d.groups[k]? = c.groups[k]?)
    (hlead : ∀ {β : Type} {H : Nat → Prop} {q : Activity β} {w : Underway β},
      (∀ k, H k → k < c.groups.length) → c.seating.Shows H (some s.group) q w →
      (∀ k, H k → k ≠ s.group → d.seating k = c.seating k) →
      Seating.Leads host d.seating c.groups.length d.groups.length H (some s.group) q r t w) :
    d.Reached host join? p r t u := by
  have hsame (k : Nat) (hk : k < c.groups.length) (hne : k ≠ s.group) :
      d.seating k = c.seating k :=
    he.seating_of_ne h.keyed hk hne (hothers k hk hne)
  obtain ⟨H, w, steps, calls, hschedule, hshows, hadded, hkept⟩ :=
    h.shows.lift h.known (h.all s he.mem_before) (fun k hk => hsame k (h.known k hk)) fun hH hq =>
      hlead (fun k hk => h.known k (hH k hk)) hq fun k hk => hsame k (h.known k (hH k hk))
  have hkeyed := he.keyed h.keyed
  refine .intro H w steps calls hschedule ⟨hkeyed, hshows, fun k hk => ?_, fun x hx => ?_⟩
  · rcases hadded k hk with hk | ⟨_, hk⟩
    · exact Nat.lt_of_lt_of_le (h.known k hk) he.more
    · exact hk
  · refine hkept x.group x.index x.seat (seats_of_mem hkeyed.keys hx) ?_
    rcases he.mem hx with ⟨y, hy, hkey⟩ | hnew
    · have hgroup : y.group = x.group := congrArg Prod.fst hkey
      exact .inl (hgroup ▸ h.all y hy)
    · exact .inr (he.new x hnew).1

theorem Presents.begin (h : c.Presents G join? p u) {other : Strand}
    (he : c.Exchanged d s (some other) []) {rest : Activity NodeRun}
    (hseat : s.seat = .outside rest) (hother : other.seat = .going rest)
    (hplace : c.hasPlace s.group = true)
    (hgroups : d.groups = c.groups.modify s.group fun g => { g with free := g.free - 1 }) :
    d.Reached host join? p r r u := by
  have hs := h.keyed.known s he.mem_before
  refine h.exchanged he (fun k _ hne => ?_) fun hbound hshows hsame => ?_
  · rw [hgroups, List.getElem?_modify_ne _ _ hne.symm]
  · obtain ⟨g, hg, hfree⟩ : ∃ g, c.groups[s.group]? = some g ∧ g.free ≠ 0 := by
      simpa [hasPlace, Option.any_eq_true] using hplace
    have hself := he.seating_self h.keyed (f := fun g => { g with free := g.free - 1 }) hs
      (by rw [hgroups, List.getElem?_modify_eq, Option.map_eq_map])
    rw [Option.map_some, hother] at hself
    refine hshows.begin hbound (hseat ▸ seats_of_mem h.keyed.keys he.mem_before) hg hfree hself
      hsame fun k index seat hk => he.lt_of_seats h.keyed hk

/-- A strand that goes on by itself is over. -/
theorem Presents.leave (h : c.Presents G join? p u) (he : c.Exchanged d s none [])
    {rest : Activity NodeRun} {run : NodeRun} (hseat : s.seat = .going rest)
    (hgroup : d.groups[s.group]? = (c.groups[s.group]?).map fun g =>
      { g with free := g.free + 1, runs := (s.index, run) :: g.runs })
    (hothers : ∀ k, k < c.groups.length → k ≠ s.group → d.groups[k]? = c.groups[k]?)
    {steps : Nat} {calls : List Call}
    (hschedule : Underway.Schedule host steps r (.going rest) calls t (.going (.done run))) :
    d.Reached host join? p r t u := by
  have hs := h.keyed.known s he.mem_before
  refine h.exchanged he hothers fun hbound hshows hsame => ?_
  exact hshows.leave hbound (hseat ▸ seats_of_mem h.keyed.keys he.mem_before)
    (he.seating_self h.keyed hs hgroup) hsame (fun k index seat hk => he.lt_of_seats h.keyed hk)
    hschedule

/-- A strand that has begun goes on. -/
theorem Presents.onward (h : c.Presents G join? p u) {other : Strand}
    (he : c.Exchanged d s (some other) started) (htaken : s.seat.isTaken = true)
    (hother : other.seat.isTaken = true)
    (hgroups : ∀ k, k < c.groups.length → d.groups[k]? = c.groups[k]?)
    (hlead : ∀ {H : Nat → Prop} {w : Underway NodeRun}, (∀ k, H k → k < c.groups.length) →
      c.seating.Shows H s.seat.group? s.seat.rest w → (∀ k, H k → d.seating k = c.seating k) →
      Seating.Leads host d.seating c.groups.length d.groups.length H other.seat.group?
        other.seat.rest r t w) : d.Reached host join? p r t u := by
  have hs := h.keyed.known s he.mem_before
  refine h.exchanged he (fun k hk _ => hgroups k hk) fun hbound hshows hsame => ?_
  have hself := he.seating_self h.keyed (f := id) hs (by rw [hgroups _ hs, Option.map_id, id])
  rw [Table.modify_id] at hself
  exact hshows.onward hbound (seats_of_mem h.keyed.keys he.mem_before) htaken hother hself hsame
    fun hH hshows => hlead (fun k hk => hbound k (hH k hk).1) hshows
      fun k hk => hsame k (hH k hk).1 (hH k hk).2

theorem Presents.congr (h : c.Presents G join? p u) (hseating : d.seating = c.seating)
    (hkeys : d.strands.map Strand.key = c.strands.map Strand.key)
    (hgroups : d.groups.length = c.groups.length) : d.Presents G join? p u := by
  have hbefore {x : Strand} (hx : x ∈ d.strands) : ∃ y ∈ c.strands, y.group = x.group := by
    have hmem := List.mem_map_of_mem (f := Strand.key) hx
    rw [hkeys] at hmem
    obtain ⟨y, hy, hkey⟩ := List.mem_map.1 hmem
    exact ⟨y, hy, congrArg Prod.fst hkey⟩
  refine ⟨⟨hkeys ▸ h.keyed.keys, fun x hx => ?_⟩, hseating ▸ h.shows, hgroups ▸ h.known,
    fun x hx => ?_⟩
  · obtain ⟨y, hy, hgroup⟩ := hbefore hx
    exact hgroups ▸ hgroup ▸ h.keyed.known y hy
  · obtain ⟨y, hy, hgroup⟩ := hbefore hx
    exact hgroup ▸ h.all y hy

theorem Reached.congr (h : c.Reached host join? p r t u) (hseating : d.seating = c.seating)
    (hkeys : d.strands.map Strand.key = c.strands.map Strand.key)
    (hgroups : d.groups.length = c.groups.length) : d.Reached host join? p r t u := by
  obtain ⟨G, w, steps, calls, hschedule, hpresents⟩ := h
  exact .intro G w steps calls hschedule (hpresents.congr hseating hkeys hgroups)

variable {front back : List Strand} {q : Activity NodeRun}

/-- A strand that has come to its end leaves the crew, and its place goes to who waits for one. -/
theorem Presents.finish (h : c.Presents G join? p u) (hs : c.strands = front ++ s :: back)
    (hseat : s.seat = .going q) {run : NodeRun} {steps : Nat} {calls : List Call}
    (hschedule : Underway.Schedule host steps r (.going q) calls t (.going (.done run)))
    (hstrands : d.strands = front ++ back) (hgroups : ∃ more, d.groups = c.groups ++ more)
    (hfinished : d.Finished s.group s.index run e) : e.Reached host join? p r t u := by
  obtain ⟨more, hmore⟩ := hgroups
  have hknown : s.group < c.groups.length :=
    h.keyed.known s (hs ▸ List.mem_append_right _ (List.mem_cons_self ..))
  -- The crew in which the place that has been given back is free.
  let left : Crew := ⟨front ++ back, d.groups.modify s.group fun g =>
    { g with free := g.free + 1, runs := (s.index, run) :: g.runs }, d.count⟩
  have hleft : left.Reached host join? p r t u := by
    have he : c.Exchanged left s none [] := .of_leave hs rfl (by simp [left, hmore])
    refine h.leave he hseat ?_ (fun k hk hne => ?_) hschedule
    · simp only [left, List.getElem?_modify_eq, Option.map_eq_map, hmore,
        List.getElem?_append_left hknown]
    · simp only [left, List.getElem?_modify_ne _ _ hne.symm, hmore, List.getElem?_append_left hk]
  cases hfinished with
  | free turn count _ =>
    refine Reached.congr (c := left) hleft ?_ ?_ rfl
    · rw [hstrands]
      exact seating_wake left s.group count turn
    · rw [hstrands]
      exact key_wake s.group turn _
  | @taken first last waiting now turn count hsplit hstage hgroup =>
    rw [hstrands] at hsplit
    let seated : Strand := { waiting with stage := .due now true }
    let taken : Crew := ⟨first ++ seated :: last, d.groups.modify s.group fun g =>
      { g with runs := (s.index, run) :: g.runs }, d.count⟩
    refine Reached.congr (c := taken) (hleft.trans fun hpresents => ?_)
      (seating_wake taken s.group count turn) (key_wake s.group turn _) rfl
    have he : left.Exchanged taken waiting (some seated) [] :=
      .of_key hsplit rfl rfl (by simp [left, taken])
    refine hpresents.begin he ?_ rfl ?_ ?_
    · unfold Strand.seat
      rw [hstage]
      rfl
    · unfold hasPlace
      rw [hgroup]
      simp only [left, List.getElem?_modify_eq, Option.map_eq_map, hmore,
        List.getElem?_append_left hknown, List.getElem?_eq_getElem hknown]
      rfl
    · rw [hgroup]
      show taken.groups = (d.groups.modify s.group _).modify s.group _
      rw [List.modify_modify_eq]
      rfl

theorem Presents.patient (h : c.Presents G join? p u) (hs : s ∈ c.strands)
    (hseat : s.seat = .going q) : q.Patient :=
  h.shows.patient (h.all s hs) (hseat ▸ seats_of_mem h.keyed.keys hs)

/-- A strand that pauses is still the strand of its task. -/
theorem Presents.pause (h : c.Presents G join? p u) (hs : c.strands = front ++ s :: back)
    (hseat : s.seat = .going q) {rest : Activity NodeRun} (hrest : rest.Patient) {steps : Nat}
    {calls : List Call}
    (hschedule : Underway.Schedule host steps r (.going q) calls t (.going rest))
    {other : Strand} (hkey : other.key = s.key) (hother : other.seat = .going rest)
    (hstrands : d.strands = front ++ other :: back)
    (hgroups : ∃ more, d.groups = c.groups ++ more) : d.Reached host join? p r t u := by
  obtain ⟨more, hmore⟩ := hgroups
  have he : c.Exchanged d s (some other) [] := .of_key hs hkey hstrands (by simp [hmore])
  refine h.onward he (by rw [hseat]; rfl) (by rw [hother]; rfl)
    (fun k hk => by rw [hmore, List.getElem?_append_left hk]) fun {H w} hbound hshows hsame => ?_
  rw [hseat] at hshows
  rw [hother]
  cases hshows with
  | going hG _ =>
    refine .intro (fun _ => False) (.going rest) steps calls hschedule
      (.going (fun _ hk => hk) hrest) (fun _ hk => hk.elim) fun k index seat hk hle => ?_
    have hlt := he.lt_of_seats h.keyed hk
    rcases hle with hk | hle
    · exact hG k hk
    · omega

/-- A strand that has started tasks waits for them. -/
theorem Presents.fork (h : c.Presents G join? p u) (hs : c.strands = front ++ s :: back)
    (hseat : s.seat = .going q) {e : Crew} (hgroups : ∃ more, e.groups = c.groups ++ more)
    (clock : Nat) {limit count : Nat} {task : Fin count → Activity NodeRun}
    {next : List NodeRun → Activity NodeRun} {steps : Nat} {calls : List Call}
    (hschedule : Underway.Schedule host steps r (.going q) calls t
      (.joined limit count (fun _ => false) (fun i => .going (task i)) next))
    (hlimit : 1 ≤ limit) (htask : ∀ i, (task i).Patient) (hnext : ∀ runs, (next runs).Patient)
    {other : Strand} (hkey : other.key = s.key)
    (hother : other.seat = .joined e.groups.length
      (.join e.groups.length none fun runs _ => next (runs.getD [])))
    (hstrands : d.strands = front ++ e.begun clock count task ++ [other] ++ back)
    (hadded : d.groups = e.groups ++ [⟨limit, count, []⟩]) : d.Reached host join? p r t u := by
  obtain ⟨more, hmore⟩ := hgroups
  have hle : c.groups.length ≤ e.groups.length := by simp [hmore]
  have he : c.Exchanged d s (some other) (e.begun clock count task) := by
    refine ⟨⟨front, back, hs, hstrands⟩, ?_, by simp [hadded, hmore], ?_, nodup_begun⟩
    · rintro _ ⟨⟩
      exact hkey
    · intro x hx
      have hgroup := group_of_mem_begun hx
      simp only [hadded, List.length_append, List.length_singleton]
      omega
  refine h.onward he (by rw [hseat]; rfl) (by rw [hother]; rfl) (fun k hk => ?_)
    fun {H w} hbound hshows hsame => ?_
  · rw [hadded, List.getElem?_append_left (Nat.lt_of_lt_of_le hk hle), hmore,
      List.getElem?_append_left hk]
  · rw [hseat] at hshows
    rw [hother]
    cases hshows with
    | going hG _ =>
      have hnew (index : Nat) := he.seats_new h.keyed hle index
      refine .intro (· = e.groups.length) _ steps calls hschedule
        (Seating.shows_start ?_ (fun i => ?_) (fun i seat hi => ?_) hlimit htask hnext)
        (fun k hk => .inr ⟨hk ▸ hle, ?_⟩) fun k index seat hk hin => ?_
      · show d.groups[e.groups.length]? = _
        rw [hadded]
        simp
      · rw [hnew, find?_begun]
      · rw [hnew] at hi
        exact (lt_of_find?_begun hi).2
      · rw [hk, hadded]
        simp
      · rcases hin with hin | hin
        · exact (hG k hin).elim
        · rw [he.seats_new h.keyed hin] at hk
          exact (lt_of_find?_begun hk).1

/-- A strand that waits for results which are there goes on with them. -/
theorem Presents.resume (h : c.Presents G join? p u) (hs : c.strands = front ++ s :: back)
    {group : Nat} (hseat : s.seat = .joined group q) {runs : List NodeRun}
    (hresults : c.results? group = some runs) {other : Strand} (hkey : other.key = s.key)
    {spent : Nat} (hother : other.seat = .going (q.answered (some runs) spent))
    (hstrands : d.strands = front ++ other :: back) (hgroups : d.groups = c.groups) :
    d.Reached host join? p r r u := by
  have he : c.Exchanged d s (some other) [] := .of_key hs hkey hstrands (by rw [hgroups])
  refine h.onward he (by rw [hseat]; rfl) (by rw [hother]; rfl) (fun k _ => by rw [hgroups])
    fun {H w} hbound hshows hsame => ?_
  rw [hseat] at hshows
  rw [hother]
  obtain ⟨limit, count, g, next, Gs, tasks, hjoint, hnext, rfl, rfl⟩ := hshows.joint
  have hg : c.groups[group]? = some g := hjoint.table.here
  unfold results? at hresults
  rw [hg] at hresults
  obtain ⟨hnone, ends, hends, rfl⟩ := hjoint.results hresults
  refine .intro (fun _ => False) _ 1 [] (.of_step (.join ends hends))
    (.going (fun _ hk => hk) (hnext _)) (fun _ hk => hk.elim) fun k index seat hk hle => ?_
  have hlt := he.lt_of_seats h.keyed hk
  rcases hle with hin | hle
  · rw [hsame k hin] at hk
    rcases (hjoint.groups k).1 hin with rfl | ⟨i, hi⟩
    · rw [hnone ⟨index, hjoint.table.index index seat hk⟩] at hk
      cases hk
    · exact (hjoint.left i (hnone i)).1 k hi
  · omega

theorem Presents.restage (h : c.Presents G join? p u) (hs : c.strands = front ++ s :: back)
    {other : Strand} (hkey : other.key = s.key) (hseat : other.seat = s.seat)
    (hstrands : d.strands = front ++ other :: back) (hgroups : d.groups = c.groups) :
    d.Presents G join? p u := by
  refine h.congr ?_ ?_ (by rw [hgroups])
  · obtain ⟨strands, groups, count⟩ := c
    obtain ⟨others, same, more⟩ := d
    obtain rfl : strands = _ := hs
    obtain rfl : others = _ := hstrands
    obtain rfl : same = groups := hgroups
    exact seating_restage hkey hseat
  · rw [hstrands, hs, List.map_append, List.map_append, List.map_cons, List.map_cons, hkey]

end Crew

namespace Crew.Presents

variable {w : World Unit} {G : Nat → Prop} {join? : Option Nat} {p : Activity α} {u : Underway α}
  {front back : List Strand} {s : Strand} {q : Activity NodeRun}

/-- What a strand does until it has to wait is what its task does in a schedule. -/
theorem goOn (h : w.crew.Presents G join? p u) (hs : w.crew.strands = front ++ s :: back)
    (hseat : s.seat = .going q) :
    (w.goOn host front s back q).crew.Reached host join? p w.storage
      (w.goOn host front s back q).storage u := by
  have hmem : s ∈ w.crew.strands := hs ▸ List.mem_append_right _ (List.mem_cons_self ..)
  have hcame := (h.patient hmem hseat).advance host (w.put [] [] []) rfl
  unfold World.goOn
  generalize q.advance host (w.put [] [] []) = r at hcame
  cases hcame with
  | @finished run v _ _ hschedule hstrands hgroups =>
    refine h.finish (d := (v.put front v.crew.strands back).crew) hs hseat hschedule ?_ hgroups
      (Crew.finished_finish _ _ _ _ _)
    simp [World.put, hstrands]
  | @paused span rest v _ _ hschedule hrest hstrands hgroups =>
    let other : Strand := ⟨s.group, s.index, .due ⟨v.clock + span, v.crew.count⟩ true, rest⟩
    refine h.pause hs hseat hrest hschedule (show other.key = s.key from rfl) rfl ?_ hgroups
    simp [World.put, hstrands, other]
  | @joined e clock limit count task next v _ _ hschedule hstrands hgroups hlimit _ htask hnext
      hcrew =>
    let other : Strand := ⟨s.group, s.index, .joined e.groups.length v.clock none none,
      .join e.groups.length none fun runs _ => next (runs.getD [])⟩
    refine h.fork hs hseat hgroups clock hschedule hlimit htask hnext
      (show other.key = s.key from rfl) rfl ?_ ?_
    · simp [World.put, hcrew, Crew.start, hstrands, Crew.begun, other]
    · simp [World.put, hcrew, Crew.start]

/-- Who goes on leaves nobody behind that waits for nothing. -/
theorem waits_goOn (h : w.crew.Presents G join? p u) (host : Host Unit)
    (hs : w.crew.strands = front ++ s :: back) (hseat : s.seat = .going q)
    (hothers : ∀ x ∈ front ++ back, x.Waits w.crew) :
    ∀ x ∈ (w.goOn host front s back q).crew.strands, x.Waits (w.goOn host front s back q).crew := by
  have hmem : s ∈ w.crew.strands := hs ▸ List.mem_append_right _ (List.mem_cons_self ..)
  have hknown (x : Strand) (hx : x ∈ front ++ back) : x.group < w.crew.groups.length := by
    refine h.keyed.known x ?_
    rw [hs, List.perm_middle.mem_iff]
    exact List.mem_cons_of_mem s hx
  have hcame := (h.patient hmem hseat).advance host (w.put [] [] []) rfl
  unfold World.goOn
  generalize q.advance host (w.put [] [] []) = r at hcame
  cases hcame with
  | @finished run v _ _ hschedule hstrands hgroups =>
    refine (Crew.finished_finish _ _ _ _ _).waits (c := w.crew) hgroups fun x hx => ?_
    simp only [World.put, hstrands, List.append_nil] at hx
    exact ⟨hothers x hx, hknown x hx⟩
  | @paused span rest v _ _ hschedule hrest hstrands hgroups =>
    intro x hx
    simp only [World.put, hstrands, List.nil_append] at hx
    rw [List.append_assoc, List.singleton_append, List.perm_middle.mem_iff, List.mem_cons] at hx
    rcases hx with rfl | hx
    · exact trivial
    · exact Crew.waits_of_append (hothers x hx) (hknown x hx) hgroups
  | @joined e clock limit count task next v _ _ hschedule hstrands hgroups hlimit hsome htask hnext
      hcrew =>
    obtain ⟨more, hmore⟩ := hgroups
    have hadded : ∃ more, v.crew.groups = w.crew.groups ++ more :=
      ⟨more ++ [⟨limit, count, []⟩], by simp [hcrew, Crew.start, hmore, World.put]⟩
    have hnone : v.crew.results? e.groups.length = none := by
      have hresults := e.results?_start clock limit count task
      rwa [if_neg (Nat.ne_of_gt hsome), ← hcrew] at hresults
    intro x hx
    simp only [World.put, hcrew, Crew.start, hstrands, List.nil_append, List.mem_append,
      List.mem_singleton] at hx
    rcases hx with (hx | hx | rfl) | hx
    · have hx := List.mem_append_left back hx
      exact Crew.waits_of_append (hothers x hx) (hknown x hx) hadded
    · obtain ⟨i, rfl⟩ := List.mem_ofFn.1 hx
      exact trivial
    · exact ⟨rfl, fun _ => hnone⟩
    · have hx := List.mem_append_right front hx
      exact Crew.waits_of_append (hothers x hx) (hknown x hx) hadded

/-- **A turn is some steps of a schedule**, and leaves nobody behind that waits for nothing. -/
theorem turn (h : w.crew.Presents G join? p u) (host : Host Unit) (horderly : w.crew.Orderly)
    (hs : w.crew.strands = front ++ s :: back) :
    (w.turn host front s back).crew.Reached host join? p w.storage
      (w.turn host front s back).storage u ∧
    ∀ x ∈ (w.turn host front s back).crew.strands, x.Waits (w.turn host front s back).crew := by
  have hwaits := horderly.waits s (hs ▸ List.mem_append_right _ (List.mem_cons_self ..))
  have hbeside (x : Strand) (hx : x ∈ front ++ back) : x.Waits w.crew := by
    refine horderly.waits x ?_
    rw [hs, List.perm_middle.mem_iff]
    exact List.mem_cons_of_mem s hx
  -- A strand that goes on does so in a crew in which it is seen to.
  have honward {c : Crew} {other : Strand} {rest : Activity NodeRun}
      (hc : c.Reached host join? p w.storage w.storage u)
      (hstrands : c.strands = front ++ other :: back) (hother : other.seat = .going rest)
      (hothers : ∀ x ∈ front ++ back, x.Waits c) :
      let v := World.goOn host { w with crew := c } front other back rest
      v.crew.Reached host join? p w.storage v.storage u ∧ ∀ x ∈ v.crew.strands, x.Waits v.crew := by
    refine ⟨hc.trans fun hpresents => ?_, ?_⟩
    · exact hpresents.goOn (w := { w with crew := c }) hstrands hother
    · obtain ⟨_, _, _, _, _, hpresents⟩ := hc
      exact hpresents.waits_goOn (w := { w with crew := c }) host hstrands hother hothers
  -- A strand that stays where it is waits for something else at most.
  have hstay {stage : Stage} (hseat : stage.seat s.rest = s.seat)
      (hstage : Strand.Waits w.crew { s with stage }) :
      let v := w.put front [{ s with stage }] back
      v.crew.Reached host join? p w.storage v.storage u ∧ ∀ x ∈ v.crew.strands, x.Waits v.crew := by
    refine ⟨.of_presents (h.restage hs (show Strand.key { s with stage } = s.key from rfl) hseat ?_
      rfl), fun x hx => ?_⟩
    · simp [World.put]
    · simp only [World.put, List.append_assoc, List.singleton_append] at hx
      rw [List.perm_middle.mem_iff, List.mem_cons] at hx
      rcases hx with rfl | hx
      · exact hstage
      · exact hbeside x hx
  unfold World.turn
  unfold Strand.Waits at hwaits
  cases hstage : s.stage with
  | due turn begun =>
    cases begun with
    | true => exact honward (.of_presents h) hs (by rw [Strand.seat, hstage]; rfl) hbeside
    | false =>
      have hseat : s.seat = .outside s.rest := by
        rw [Strand.seat, hstage]
        rfl
      dsimp only
      split
      · next hplace =>
        let seated : Strand := { s with stage := .due turn true }
        let taken : Crew := { w.crew.takePlace s.group with strands := front ++ seated :: back }
        have he : w.crew.Exchanged taken s (some seated) [] :=
          .of_key hs rfl rfl (by simp [taken, Crew.takePlace, Crew.modify])
        have htaken := honward (h.begin he hseat rfl hplace rfl)
          (show taken.strands = front ++ seated :: back from rfl) rfl
          fun x hx => Crew.waits_takePlace (hbeside x hx) s.group
        exact htaken
      · next hplace => exact hstay hseat.symm (by simpa [Strand.Waits] using hplace)
  | held => exact ⟨.of_presents h, horderly.waits⟩
  | joined group since alarm woken =>
    rw [hstage] at hwaits
    obtain ⟨rfl, _⟩ := hwaits
    have hseat : s.seat = .joined group s.rest := by
      rw [Strand.seat, hstage]
      rfl
    dsimp only
    cases hresults : w.crew.results? group with
    | some runs =>
      let awake : Strand := { s with
        stage := .due ⟨0, 0⟩ true, rest := s.rest.answered (some runs) (w.clock - since) }
      let ready : Crew := { w.crew with strands := front ++ awake :: back }
      have hready : ready.Reached host join? p w.storage w.storage u :=
        h.resume hs hseat hresults (show awake.key = s.key from rfl) rfl rfl rfl
      have hstrands : ready.strands = front ++ awake :: back := rfl
      have hawake := honward hready hstrands rfl hbeside
      exact hawake
    | none =>
      have hasleep : ¬ (Turn.come? w.clock none).isSome = true := Bool.false_ne_true
      dsimp only
      rw [if_neg hasleep]
      exact hstay hseat.symm ⟨rfl, fun _ => hresults⟩

/-! ## A whole run -/

/-- **Tasks go on until all of them are over.** By induction on their turns. -/
theorem settle {group : Nat} {goal limit : Option Nat} (h : w.crew.Presents G (some group) p u)
    (host : Host Unit) (horderly : w.crew.Orderly) (hgoal : goal = some group)
    (hlimit : limit = none) :
    (w.settle host goal limit).crew.Reached host (some group) p w.storage
        (w.settle host goal limit).storage u ∧
      ∃ runs, (w.settle host goal limit).crew.results? group = some runs := by
  fun_induction World.settle host goal limit w generalizing G u with
  | case1 w front s back hpick ih =>
    obtain ⟨hturn, hwaits⟩ := h.turn host horderly (Crew.pick?_eq_some hpick).1
    obtain ⟨H, x, steps, calls, hschedule, hpresents⟩ := hturn
    obtain ⟨⟨I, y, more, others, hmore, hafter⟩, hruns⟩ := ih hpresents ⟨hpresents.keyed, hwaits⟩
    exact ⟨.intro I y _ _ (hschedule.trans hmore) hafter, hruns⟩
  | case2 w hpick hdone =>
    rw [hgoal, Option.any_some] at hdone
    exact ⟨.of_presents h, Option.isSome_iff_exists.1 hdone⟩
  | case3 w hpick hdone later hnext hover =>
    rw [hlimit] at hover
    cases hover
  | case4 w hpick hdone later hnext hover ih => exact ih h horderly
  | case5 w hpick hdone hnext =>
    obtain ⟨g, runs, hg, hruns⟩ := h.shows.results_of_stuck
      (fun k _ => horderly.stuck hpick hnext k) rfl
    have hresults : w.crew.results? group = some runs := by
      have hhere : w.crew.groups[group]? = some g := hg
      unfold Crew.results?
      rw [hhere]
      exact hruns
    rw [hgoal, Option.any_some, hresults] at hdone
    cases hdone rfl

/-- Whoever waits for tasks gets what all of them have come to, and nobody is left then. -/
theorem await {group : Nat} {next : List NodeRun → Activity α}
    (h : w.crew.Presents G (some group) (.join group none fun runs _ => next (runs.getD [])) u)
    (host : Host Unit) (horderly : w.crew.Orderly) :
    ∃ (runs : List NodeRun) (steps : Nat) (calls : List Call),
      (w.await host group none).crew.results? group = some runs ∧
        (w.await host group none).crew.strands = [] ∧
          Underway.Schedule host steps w.storage u calls (w.await host group none).storage
            (.going (next runs)) := by
  obtain ⟨⟨H, x, steps, calls, hschedule, hpresents⟩, runs, hruns⟩ :
      (w.await host group none).crew.Reached host (some group)
        (.join group none fun runs _ => next (runs.getD [])) w.storage
          (w.await host group none).storage u ∧
        ∃ runs, (w.await host group none).crew.results? group = some runs := by
    unfold World.await
    split
    · next hready =>
      simp only [reduceCtorEq, or_false] at hready
      exact ⟨.of_presents h, Option.isSome_iff_exists.1 hready⟩
    · exact h.settle host horderly rfl rfl
  obtain ⟨limit, count, g, last, Gs, tasks, hjoint, _, hlast, rfl⟩ := hpresents.shows.joint
  have hnext (runs : List NodeRun) : last runs = next runs := by
    obtain ⟨_, _, hsame⟩ := Activity.join.inj hlast
    exact (congrFun (congrFun hsame (some runs)) 0).symm
  have hg : (w.await host group none).crew.groups[group]? = some g := hjoint.table.here
  have hresults := hruns
  unfold Crew.results? at hresults
  rw [hg] at hresults
  obtain ⟨hnone, ends, hends, rfl⟩ := hjoint.results hresults
  refine ⟨_, _, _, hruns, ?_, hnext _ ▸ hschedule.trans (.of_step (.join ends hends))⟩
  refine List.eq_nil_iff_forall_not_mem.2 fun s hs => ?_
  have hseat := Crew.seats_of_mem hpresents.keyed.keys hs
  rcases (hjoint.groups s.group).1 (hpresents.all s hs) with hgroup | ⟨i, hi⟩
  · rw [hgroup] at hseat
    rw [hnone ⟨s.index, hjoint.table.index _ _ hseat⟩] at hseat
    cases hseat
  · exact (hjoint.left i (hnone i)).1 _ hi

end Crew.Presents

/-- A crew without tasks that starts some presents them. -/
theorem Crew.presents_start {c : Crew} (hc : c.strands = []) (clock : Nat) {limit count : Nat}
    {task : Fin count → Activity NodeRun} {next : List NodeRun → Activity α} (hlimit : 1 ≤ limit)
    (htask : ∀ i, (task i).Patient) (hnext : ∀ runs, (next runs).Patient) :
    (c.start clock limit count task).2.Presents (· = c.groups.length) (some c.groups.length)
      (.join c.groups.length none fun runs _ => next (runs.getD []))
      (.joined limit count (fun _ => false) (fun i => .going (task i)) next) ∧
    (c.start clock limit count task).2.Orderly := by
  have hstrands : (c.start clock limit count task).2.strands = c.begun clock count task := by
    simp only [Crew.start, hc, List.nil_append, Crew.begun]
  have hgroups : (c.start clock limit count task).2.groups = c.groups ++ [⟨limit, count, []⟩] := rfl
  have hseats (index : Nat) :
      ((c.start clock limit count task).2.seating c.groups.length).seats index =
        ((c.begun clock count task).find? (Strand.isAt c.groups.length index)).map Strand.seat := by
    unfold Crew.seating
    rw [hstrands]
  have hkeyed : (c.start clock limit count task).2.Keyed := by
    refine ⟨by rw [hstrands]; exact Crew.nodup_begun, fun s hs => ?_⟩
    rw [hstrands] at hs
    rw [Crew.group_of_mem_begun hs, hgroups]
    simp
  refine ⟨⟨hkeyed, ?_, fun k hk => ?_, fun s hs => ?_⟩, hkeyed, fun s hs => ?_⟩
  · refine Seating.shows_start ?_ (fun i => ?_) (fun i seat hi => ?_) hlimit htask hnext
    · show (c.start clock limit count task).2.groups[c.groups.length]? = _
      rw [hgroups]
      simp
    · rw [hseats, Crew.find?_begun]
    · rw [hseats] at hi
      exact (Crew.lt_of_find?_begun hi).2
  · rw [hk, hgroups]
    simp
  · exact Crew.group_of_mem_begun (hstrands ▸ hs)
  · rw [hstrands] at hs
    obtain ⟨i, rfl⟩ := List.mem_ofFn.1 hs
    exact trivial

/-- **Carrying out an activity is one of its schedules.** An activity that waits for its tasks for
as long as it takes comes to its end, in a world in which no other tasks are under way, in some
steps of a schedule, and leaves no tasks behind. By induction on the activity. -/
theorem Activity.Patient.run {p : Activity α} (hp : p.Patient) (host : Host Unit) {w : World Unit}
    (hw : w.crew.strands = []) :
    (∃ (steps : Nat) (calls : List Call), Underway.Schedule host steps w.storage (.going p) calls
      (p.run host w).2.storage (.going (.done (p.run host w).1))) ∧
    (p.run host w).2.crew.strands = [] := by
  induction hp generalizing w with
  | done => exact ⟨⟨0, [], .none⟩, hw⟩
  | @wait _ span rest _ ih =>
    have hpass := World.pass_of_strands_eq_nil host span w hw
    have hstorage : (w.pass host span).storage = w.storage := by rw [hpass]
    have hlater : (w.pass host span).crew.strands = [] := by
      rw [hpass]
      exact hw
    obtain ⟨⟨steps, calls, hschedule⟩, hempty⟩ := ih hlater
    rw [hstorage] at hschedule
    exact ⟨⟨_, _, .step .wait hschedule⟩, hempty⟩
  | @ask _ c rest _ ih =>
    unfold Activity.run
    have hrest : (if c.isSlow then w.rest host else w) = w := by
      split
      · exact World.rest_of_strands_eq_nil host w hw
      · rfl
    rw [hrest, c.answer_eq_reply]
    obtain ⟨⟨steps, calls, hschedule⟩, hempty⟩ :=
      ih (c.reply host w.storage).1 (w := { w with storage := (c.reply host w.storage).2 }) hw
    exact ⟨⟨_, _, .step .ask hschedule⟩, hempty⟩
  | @fork _ limit count task next hlimit htask hnext _ ih =>
    obtain ⟨hpresents, horderly⟩ := Crew.presents_start hw w.clock hlimit htask hnext
    let v : World Unit := { w with crew := (w.crew.start w.clock limit count task).2 }
    obtain ⟨runs, steps, calls, hruns, hempty, hschedule⟩ :=
      Crew.Presents.await (w := v) hpresents host horderly
    have hrun : (Activity.start limit count task fun group => .join group none fun runs _ =>
        next (runs.getD [])).run host w =
          (next runs).run host (v.await host w.crew.groups.length none) := by
      show (next (((v.await host _ none).crew.results? _).getD [])).run host _ = _
      rw [hruns]
      rfl
    obtain ⟨⟨more, others, hmore⟩, hgone⟩ := ih runs hempty
    rw [hrun]
    exact ⟨⟨_, _, .step .start (hschedule.trans hmore)⟩, hgone⟩

/-! ## Nodes without timeouts -/

namespace Activity.Patient

variable {mid : α → Prop} {p : Activity α} {next : α → Activity β}

theorem bind (h : p.Patient) (hp : p.Yields (fun _ => True) mid)
    (hnext : ∀ a, mid a → (next a).Patient) : (p >>= next).Patient := by
  show (p.bind next).Patient
  induction h with
  | done => exact hnext _ hp
  | wait _ ih => exact .wait (ih hp hnext)
  | ask _ ih => exact .ask fun a => ih a (hp a) hnext
  | fork hlimit htask _ _ ih =>
    exact .fork hlimit htask fun runs =>
      ih runs (hp.2 0 (some runs) 0 fun _ _ _ _ => trivial) hnext

theorem all (limit : Nat) {count : Nat} {tasks : Fin count → Activity NodeRun}
    (h : ∀ i, (tasks i).Patient) : (Activity.all limit (List.ofFn tasks)).Patient := by
  rw [all_ofFn]
  exact .fork (Nat.le_max_left 1 limit) h fun _ => .done

/-- To be patient is a discipline, but not one that is kept by what is cut off. -/
def discipline : Discipline (fun _ => True) fun r => ∀ e ∈ r.errors, True where
  Holds _ _ post p := p.Patient ∧ p.Yields (fun _ => True) post
  done h := ⟨.done, h⟩
  wait h := ⟨.wait h.1, h.2⟩
  mono h _ hpost := ⟨h.1, h.2.mono hpost⟩
  bind h hnext := ⟨h.1.bind h.2 fun a ha => (hnext a ha).1,
    yields_bind h.2 fun a ha => (hnext a ha).2⟩
  perform _ := ⟨.ask fun _ => .done, fun _ => trivial⟩
  all limit _ _ _ _ _ h := ⟨all limit fun i => (h i).1,
    (yields_all limit fun i => (h i).2.mono fun _ _ => trivial).mono fun _ _ _ _ _ _ => trivial⟩

end Activity.Patient

end WorkflowGraph
