import HeapProfile.Proofs.Intervals

/-!
# Timeline — at which times the rows of the charts were sampled

A recording may be handed events, be asked to read a whole stream and be closed, in any order and
any number of times.  Every request comes down to calls (`serve_eq_foldl_take`), and the times of
the rows are known from the calls alone: the origin, the `milestones` among the time marks up to the
first closing, and one tick behind the last of them where there is such a tick.

* **`milestones_concat`** — a time mark is a milestone if it is later than the last one;
* **`times_after`** — the samples of a recording stand at the milestones and at its end;
* **`series_after_of_closed`** — behind the first closing no chart changes;
* **`rows_follow_milestones`** — the timeline at any time of any sequence of requests.
-/

namespace HeapProfile

/-! ## Milestones -/

/-- Whether a stamp is later than zero and than all of some others. -/
def isLaterThanAll (stamp : UInt64) (earlier : List UInt64) : Bool :=
  0 < stamp && earlier.all fun other => other < stamp

/-- The stamps that are later than zero and than every stamp before them, in their order. -/
def milestones (stamps : List UInt64) : List UInt64 :=
  (stamps.zipIdx.filter fun e => isLaterThanAll e.1 (stamps.take e.2)).map Prod.fst

/-- The last milestone, or zero. -/
def latest (stamps : List UInt64) : UInt64 := (milestones stamps).getLastD 0

theorem isLaterThanAll_iff {stamp : UInt64} {earlier : List UInt64} :
    isLaterThanAll stamp earlier = true ↔ 0 < stamp ∧ ∀ other ∈ earlier, other < stamp := by
  rw [isLaterThanAll, Bool.and_eq_true, decide_eq_true_iff, List.all_eq_true]
  simp only [decide_eq_true_iff]

/-- A stamp behind others is a milestone if it is later than zero and than all of them.  The stamps in
    front of it are milestones or not as before. -/
theorem milestones_concat_of_all (stamps : List UInt64) (stamp : UInt64) :
    milestones (stamps ++ [stamp])
      = milestones stamps ++ if isLaterThanAll stamp stamps then [stamp] else [] := by
  -- in front of an earlier stamp stands the same as before
  have hold : (stamps.zipIdx.filter fun e => isLaterThanAll e.1 ((stamps ++ [stamp]).take e.2))
      = stamps.zipIdx.filter fun e => isLaterThanAll e.1 (stamps.take e.2) := by
    refine List.filter_congr fun e he => ?_
    have hlt : e.2 < stamps.length := by
      have hbound := List.snd_lt_add_of_mem_zipIdx he
      rwa [Nat.zero_add] at hbound
    rw [List.take_append_of_le_length (Nat.le_of_lt hlt)]
  rw [milestones, List.zipIdx_append, List.filter_append, hold, List.map_append, milestones]
  refine congrArg _ ?_
  rw [Nat.zero_add, List.zipIdx_singleton, List.filter_singleton, List.take_left]
  cases isLaterThanAll stamp stamps <;> rfl

/-- The last milestone is one of the stamps, or zero, and no stamp is later.  Stamps may come in any
    order, and only those that are later than all before them are milestones. -/
theorem latest_spec (stamps : List UInt64) :
    (latest stamps = 0 ∨ latest stamps ∈ stamps) ∧ ∀ stamp ∈ stamps, stamp ≤ latest stamps := by
  induction stamps using List.reverseRecOn with
  | nil => exact ⟨Or.inl rfl, fun _ h => nomatch h⟩
  | append_singleton stamps stamp ih =>
      obtain ⟨hmem, hbound⟩ := ih
      rw [latest, milestones_concat_of_all]
      by_cases hnew : isLaterThanAll stamp stamps
      · rw [if_pos hnew, List.getLastD_concat]
        refine ⟨Or.inr (List.mem_append_right _ List.mem_cons_self), ?_⟩
        intro other hother
        rcases List.mem_append.1 hother with hold | hlast
        · exact UInt64.le_of_lt ((isLaterThanAll_iff.1 hnew).2 other hold)
        · rw [List.mem_singleton.1 hlast]
          exact UInt64.le_refl _
      · rw [if_neg hnew, List.append_nil]
        refine ⟨hmem.imp_right (List.mem_append_left _), ?_⟩
        intro other hother
        rcases List.mem_append.1 hother with hold | hlast
        · exact hbound other hold
        · rw [List.mem_singleton.1 hlast]
          refine UInt64.not_lt.1 fun hlate => hnew (isLaterThanAll_iff.2 ⟨?_, ?_⟩)
          · exact UInt64.lt_of_le_of_lt UInt64.zero_le hlate
          · exact fun earlier hearlier => UInt64.lt_of_le_of_lt (hbound earlier hearlier) hlate

/-- **A time mark is a milestone if it is later than the last one.**  So a recording need not remember
    more of its time marks than the last milestone. -/
theorem milestones_concat (stamps : List UInt64) (stamp : UInt64) :
    milestones (stamps ++ [stamp])
      = milestones stamps ++ if latest stamps < stamp then [stamp] else [] := by
  obtain ⟨hmem, hbound⟩ := latest_spec stamps
  have hiff : isLaterThanAll stamp stamps ↔ latest stamps < stamp := by
    rw [isLaterThanAll_iff]
    constructor
    · rintro ⟨hpos, hall⟩
      rcases hmem with hzero | hmem
      · rw [hzero]
        exact hpos
      · exact hall _ hmem
    · intro hlate
      exact ⟨UInt64.lt_of_le_of_lt UInt64.zero_le hlate,
        fun earlier hearlier => UInt64.lt_of_le_of_lt (hbound earlier hearlier) hlate⟩
  rw [milestones_concat_of_all, if_congr hiff rfl rfl]

theorem latest_concat (stamps : List UInt64) (stamp : UInt64) :
    latest (stamps ++ [stamp]) = if latest stamps < stamp then stamp else latest stamps := by
  rw [latest, milestones_concat]
  split
  · exact List.getLastD_concat
  · rw [List.append_nil]
    rfl

/-- Milestones increase, from zero on, and none is later than the last.  The three are proved together,
    because each new milestone is compared with the last one. -/
theorem milestones_increase (stamps : List UInt64) :
    (0 :: milestones stamps).Pairwise (· < ·) ∧
      ∀ stamp ∈ 0 :: milestones stamps, stamp ≤ latest stamps := by
  -- the bound is carried along because the next milestone is compared with the last one only
  induction stamps using List.reverseRecOn with
  | nil =>
      refine ⟨List.pairwise_singleton _ _, ?_⟩
      intro stamp hstamp
      rw [List.mem_singleton.1 hstamp]
      exact UInt64.le_refl _
  | append_singleton stamps stamp ih =>
      obtain ⟨hincrease, hbound⟩ := ih
      rw [milestones_concat, latest_concat]
      split
      · rename_i hlate
        rw [← List.cons_append]
        refine ⟨List.pairwise_append.2 ⟨hincrease, List.pairwise_singleton _ _, ?_⟩, ?_⟩
        · intro earlier hearlier later hlater
          rw [List.mem_singleton.1 hlater]
          exact UInt64.lt_of_le_of_lt (hbound earlier hearlier) hlate
        · intro earlier hearlier
          rcases List.mem_append.1 hearlier with hold | hnew
          · exact UInt64.le_of_lt (UInt64.lt_of_le_of_lt (hbound earlier hold) hlate)
          · rw [List.mem_singleton.1 hnew]
            exact UInt64.le_refl _
      · rw [List.append_nil]
        exact ⟨hincrease, hbound⟩

namespace Recording

/-! ## Calls and the state they lead to -/

/-- The time mark that a call hands over, if it hands one over. -/
def Call.stamp? : Call → Option UInt64
  | .handle (.timestamp stamp) => some stamp
  | _ => none

/-- The time marks that some calls hand over before the first closing among them. -/
def openStamps (calls : List Call) : List UInt64 :=
  (calls.takeWhile fun call => call ≠ .finish).filterMap Call.stamp?

theorem lt_largest_of_ne {time : UInt64} (h : time ≠ UInt64.largest) : time < UInt64.largest :=
  UInt64.lt_of_le_of_ne (UInt64.le_iff_toNat_le.2 (toNat_le_wordMax time)) h

/-- The sample that is due when a recording is closed: one tick behind a time, where there is a tick
    left. -/
def closingTimes (last : UInt64) : List UInt64 := if last < UInt64.largest then [last + 1] else []

/-- The end of a recording whose last milestone is a given time. -/
def endTime (last : UInt64) : UInt64 :=
  if last < UInt64.largest then last + 1 else UInt64.largest

/-- The sample at the end stands behind the milestones, one later than the last stamp unless that is
    the largest. -/
theorem times_increase (stamps : List UInt64) :
    (0 :: (milestones stamps ++ closingTimes (latest stamps))).Pairwise (· < ·) := by
  obtain ⟨hincrease, hbound⟩ := milestones_increase stamps
  rw [closingTimes]
  split
  · rename_i hleft
    rw [← List.cons_append, List.pairwise_append]
    refine ⟨hincrease, List.pairwise_singleton _ _, ?_⟩
    intro earlier hearlier later hlater
    rw [List.mem_singleton.1 hlater]
    have htick : latest stamps < latest stamps + 1 := UInt64.lt_add_one (UInt64.ne_of_lt hleft)
    exact UInt64.lt_of_le_of_lt (hbound earlier hearlier) htick
  · rw [List.append_nil]
    exact hincrease

/-- The stamps of a call count as long as the recording is open; behind a closing nothing does. -/
theorem openStamps_concat (calls : List Call) (call : Call) :
    openStamps (calls ++ [call])
      = openStamps calls ++ if .finish ∈ calls then [] else call.stamp?.toList := by
  rw [openStamps, openStamps]
  -- behind a closing nothing counts any more; before it every call counted
  by_cases hclosed : Call.finish ∈ calls
  · rw [if_pos hclosed, List.append_nil, List.takeWhile_append, if_neg]
    intro hall
    have hsub := List.takeWhile_eq_self_iff.1 (List.takeWhile_prefix _ |>.eq_of_length hall)
    exact absurd (hsub _ hclosed) (by decide)
  · have hopen : ∀ c ∈ calls, decide (c ≠ Call.finish) = true := by
      intro c hc
      refine decide_eq_true ?_
      rintro rfl
      exact hclosed hc
    rw [if_neg hclosed, List.takeWhile_append_of_pos hopen, List.filterMap_append,
      List.takeWhile_eq_self_iff.2 hopen]
    cases call <;> rfl

/-- **A recording is closed** from the first closing on. -/
theorem finished_after_iff (stopNames : List String) (calls : List Call) :
    (after stopNames calls).finished = true ↔ .finish ∈ calls := by
  induction calls using List.reverseRecOn with
  | nil => exact iff_of_false Bool.false_ne_true List.not_mem_nil
  | append_singleton calls call ih =>
      rw [after_concat, finished_take_iff, ih, List.mem_append, List.mem_singleton]
      exact or_congr_right eq_comm

theorem lastStamp_handle (r : Recording) (event : Event) :
    (r.handle event).lastStamp
      = (Call.handle event).stamp?.elim r.lastStamp fun stamp =>
          if r.lastStamp < stamp then stamp else r.lastStamp := by
  cases event with
  | timestamp stamp =>
      show (if stamp ≤ r.lastStamp then r else r.boundary stamp false).lastStamp = _
      by_cases hlate : r.lastStamp < stamp
      · rw [if_neg (UInt64.not_le.2 hlate)]
        exact (if_pos hlate).symm
      · rw [if_pos (UInt64.not_lt.1 hlate)]
        exact (if_neg hlate).symm
  | _ => rfl

/-- An open recording knows the last milestone.  By induction on the calls, with the last one apart. -/
theorem lastStamp_after (stopNames : List String) {calls : List Call} (hopen : .finish ∉ calls) :
    (after stopNames calls).lastStamp = latest (openStamps calls) := by
  induction calls using List.reverseRecOn with
  | nil => rfl
  | append_singleton calls call ih =>
      rw [List.mem_append, not_or, List.mem_singleton] at hopen
      cases call with
      | finish => exact absurd rfl hopen.2
      | handle event =>
          rw [after_concat, openStamps_concat, if_neg hopen.1, take, lastStamp_handle, ih hopen.1]
          cases (Call.handle event).stamp? with
          | none =>
              rw [Option.toList_none, List.append_nil]
              rfl
          | some stamp =>
              rw [Option.toList_some, latest_concat]
              rfl

/-! ## The times of the samples -/

/-- A call takes a sample of an open recording: behind a milestone, or at the end.  This is where the
    program's own condition is replaced by the time marks of the calls. -/
theorem sampleTime?_after (stopNames : List String) (calls : List Call) (call : Call) :
    ((after stopNames calls).sampleTime? call).toList
      = if .finish ∈ calls then []
        else if call = .finish then closingTimes (latest (openStamps calls))
        else call.stamp?.toList.filter fun stamp => latest (openStamps calls) < stamp := by
  by_cases hclosed : Call.finish ∈ calls
  · rw [if_pos hclosed]
    have hfinished := (finished_after_iff stopNames calls).2 hclosed
    cases htime : (after stopNames calls).sampleTime? call with
    | none => rfl
    | some time =>
        rw [(sampleTime?_eq_some htime).1] at hfinished
        exact Bool.noConfusion hfinished
  · have hfinished := Bool.eq_false_iff.2 (mt (finished_after_iff stopNames calls).1 hclosed)
    rw [if_neg hclosed, ← lastStamp_after stopNames hclosed]
    cases call with
    | finish =>
        rw [if_pos rfl, closingTimes, sampleTime?]
        by_cases hlast : (after stopNames calls).lastStamp = UInt64.largest
        · rw [if_pos (Or.inr hlast), hlast, if_neg (UInt64.lt_irrefl _)]
          rfl
        · rw [if_neg (by simp [hfinished, hlast]), if_pos (lt_largest_of_ne hlast)]
          rfl
    | handle event =>
        rw [if_neg (by simp)]
        cases event with
        | timestamp stamp =>
            show Option.toList (if _ then _ else _) = List.filter _ [stamp]
            rw [List.filter_singleton, hfinished]
            by_cases hlate : (after stopNames calls).lastStamp < stamp
            · rw [if_neg (by simp [hlate]), decide_eq_true hlate]
              rfl
            · rw [if_pos (Or.inr (UInt64.not_lt.1 hlate)), decide_eq_false hlate]
              rfl
        | _ => rfl

/-- **The samples of a recording stand at the milestones and at its end.**  By induction on the calls; a
    call adds a sample exactly where it adds a milestone or closes. -/
theorem times_after (stopNames : List String) (calls : List Call) :
    ((start stopNames).sampled calls).map Prod.fst = milestones (openStamps calls)
      ++ if .finish ∈ calls then closingTimes (latest (openStamps calls)) else [] := by
  induction calls using List.reverseRecOn with
  | nil => rfl
  | append_singleton calls call ih =>
      have htime := sampleTime?_after stopNames calls call
      rw [sampled_concat, List.map_append, ih, List.map_map]
      show _ ++ List.map id ((after stopNames calls).sampleTime? call).toList = _
      rw [List.map_id, htime, openStamps_concat]
      by_cases hclosed : Call.finish ∈ calls
      · rw [if_pos hclosed, if_pos hclosed, if_pos hclosed, List.append_nil, List.append_nil,
          if_pos (List.mem_append_left _ hclosed)]
      · rw [if_neg hclosed, if_neg hclosed, if_neg hclosed, List.append_nil]
        -- closing takes the last sample, any other call takes one if its time mark is a milestone
        cases call with
        | finish =>
            rw [if_pos rfl, if_pos (List.mem_append_right _ List.mem_cons_self)]
            show _ = milestones (openStamps calls ++ [])
              ++ closingTimes (latest (openStamps calls ++ []))
            rw [List.append_nil]
        | handle event =>
            rw [if_neg (by simp), if_neg (by simp [hclosed]), List.append_nil]
            cases (Call.handle event).stamp? with
            | none =>
                rw [Option.toList_none, List.append_nil]
                exact List.append_nil _
            | some stamp =>
                rw [Option.toList_some, milestones_concat, List.filter_singleton]
                by_cases hlate : latest (openStamps calls) < stamp
                · rw [decide_eq_true hlate, if_pos hlate]
                  rfl
                · rw [decide_eq_false hlate, if_neg hlate]
                  rfl

/-! ## Rows, labels and the end -/

theorem rows_take {r : Recording} (h : Charted r) (call : Call) (m : Metric) :
    (r.series.series m).rows.toList <+: ((r.take call).series.series m).rows.toList := by
  rw [series_take h]
  cases r.sampleTime? call with
  | none => exact List.prefix_refl _
  | some time =>
      show _ <+: (Array.push (r.series.series m).rows _).toList
      rw [Array.toList_push]
      exact List.prefix_append _ _

/-- **A row once there is never changed.**  Samples add rows behind those there are, and nothing else
    adds or changes rows. -/
theorem rows_grow (stopNames : List String) {before calls : List Call}
    (h : before <+: calls) (m : Metric) :
    ((after stopNames before).series.series m).rows.toList
      <+: ((after stopNames calls).series.series m).rows.toList := by
  obtain ⟨rest, rfl⟩ := h
  induction rest using List.reverseRecOn with
  | nil => rw [List.append_nil]
  | append_singleton rest call ih =>
      rw [← List.append_assoc, after_concat]
      exact ih.trans (rows_take (charted_after _ _) call m)

/-- What a closed recording shows, its charts and the length of its run, no call changes. -/
theorem take_of_finished {r : Recording} (h : Charted r) (hclosed : r.finished = true)
    (call : Call) : (r.take call).series = r.series ∧ (r.take call).totalTime = r.totalTime := by
  cases call with
  | finish =>
      rw [take, finish, if_pos hclosed]
      exact ⟨rfl, rfl⟩
  | handle event =>
      cases event with
      | timestamp stamp =>
          rw [take, handle]
          split
          · exact ⟨rfl, rfl⟩
          · exact ⟨series_boundary_closed h hclosed stamp false, rfl⟩
      | _ => exact ⟨rfl, rfl⟩

/-- **Behind the first closing no chart changes**, and neither does the length of the run, although
    events are still taken. -/
theorem series_after_of_closed (stopNames : List String) {before calls : List Call}
    (h : before <+: calls) (hclosed : .finish ∈ before) :
    (after stopNames calls).series = (after stopNames before).series ∧
      (after stopNames calls).totalTime = (after stopNames before).totalTime := by
  obtain ⟨rest, rfl⟩ := h
  induction rest using List.reverseRecOn with
  | nil =>
      rw [List.append_nil]
      exact ⟨rfl, rfl⟩
  | append_singleton rest call ih =>
      have hfinished := (finished_after_iff stopNames (before ++ rest)).2
        (List.mem_append_left _ hclosed)
      obtain ⟨hseries, htime⟩ := take_of_finished (charted_after _ _) hfinished call
      rw [← List.append_assoc, after_concat, hseries, htime]
      exact ih

theorem totalTime_handle (r : Recording) (event : Event) :
    (r.handle event).totalTime = r.totalTime := by
  cases event with
  | timestamp stamp =>
      rw [handle]
      split
      · rfl
      · rfl
  | _ => rfl

/-- **The length of a run** is zero until it is closed, and then its end: a tick behind the last
    milestone, if there is a tick left. -/
theorem totalTime_after (stopNames : List String) (calls : List Call) :
    (after stopNames calls).totalTime
      = if .finish ∈ calls then endTime (latest (openStamps calls)) else 0 := by
  induction calls using List.reverseRecOn with
  | nil => rfl
  | append_singleton calls call ih =>
      by_cases hclosed : Call.finish ∈ calls
      · rw [(series_after_of_closed stopNames (List.prefix_append _ _) hclosed).2, ih,
          openStamps_concat, if_pos hclosed, if_pos hclosed, List.append_nil,
          if_pos (List.mem_append_left _ hclosed)]
      · rw [if_neg hclosed] at ih
        cases call with
        | handle event =>
            rw [after_concat, take, totalTime_handle, ih, if_neg (by simp [hclosed])]
        | finish =>
            have hfinished := mt (finished_after_iff stopNames calls).1 hclosed
            rw [if_pos (List.mem_append_right _ List.mem_cons_self), openStamps_concat,
              if_neg hclosed]
            show _ = endTime (latest (openStamps calls ++ []))
            rw [List.append_nil, ← lastStamp_after stopNames hclosed, after_concat,
              take, finish, if_neg hfinished, endTime]
            by_cases hlast : (after stopNames calls).lastStamp = UInt64.largest
            · rw [if_pos hlast, hlast, if_neg (UInt64.lt_irrefl _)]
            · rw [if_neg hlast, if_pos (lt_largest_of_ne hlast)]

/-! ## Requests -/

/-- What a recording may be asked for: to take an event, to read a stream, or to close. -/
inductive Request
  | handle (event : Event)
  | read (stream : List (Except StreamFault Event))
  | finish

/-- The recording behind a request. -/
def serve (r : Recording) : Request → Recording
  | .handle event => r.handle event
  | .read stream => (r.read stream).1
  | .finish => r.finish

/-- The calls that a request comes down to.  Reading hands over every event in front of the first
    fault, and closes the recording if there is no fault. -/
def Request.calls : Request → List Call
  | .handle event => [.handle event]
  | .read stream =>
    (Run.eventsOf (stream.takeWhile Except.isOk)).map .handle
      ++ if stream.all Except.isOk then [.finish] else []
  | .finish => [.finish]

theorem read_eq_foldl_take (r : Recording) (stream : List (Except StreamFault Event)) :
    (r.read stream).1 = (Request.read stream).calls.foldl take r := by
  induction stream generalizing r with
  | nil => rfl
  | cons step rest ih =>
      cases step with
      | error fault => rfl
      | ok event => exact ih (r.handle event)

/-- **Every request comes down to calls.**  A reading of charts is no call at all, so it can stand
    anywhere between the others. -/
theorem serve_eq_foldl_take (r : Recording) (request : Request) :
    r.serve request = request.calls.foldl take r := by
  cases request with
  | handle event => rfl
  | finish => rfl
  | read stream => exact read_eq_foldl_take r stream

theorem foldl_serve (r : Recording) (requests : List Request) :
    requests.foldl serve r = (requests.flatMap Request.calls).foldl take r := by
  induction requests generalizing r with
  | nil => rfl
  | cons request rest ih =>
      rw [List.foldl_cons, ih, List.flatMap_cons, List.foldl_append, serve_eq_foldl_take]

/-- **The timeline of the charts**, at any time of any sequence of requests.  All charts have the
    same row times: zero, the milestones among the time marks that were handed over before the first
    closing, and once the recording is closed one tick behind the last milestone, if there is such a
    tick.  They increase, and rows that are there stay as they are.  The length of the run is zero
    before the first closing and its end from then on, and behind the first closing neither it nor
    any chart changes. -/
theorem rows_follow_milestones (stopNames : List String) (requests : List Request) :
    let calls := requests.flatMap Request.calls
    requests.foldl serve (start stopNames) = after stopNames calls ∧
    ∀ past, past <+: calls →
      let r := after stopNames past
      let marks := openStamps past
      let times := 0 :: (milestones marks
        ++ if .finish ∈ past then closingTimes (latest marks) else [])
      (∀ m, (r.series.series m).rows.toList.map ChartRow.timeStamp = times) ∧
      times.Pairwise (· < ·) ∧
      r.totalTime = (if .finish ∈ past then endTime (latest marks) else 0) ∧
      ∀ earlier, earlier <+: past →
        (∀ m, ((after stopNames earlier).series.series m).rows.toList
          <+: (r.series.series m).rows.toList) ∧
        (.finish ∈ earlier → r.series = (after stopNames earlier).series ∧
          r.totalTime = (after stopNames earlier).totalTime) := by
  intro calls
  refine ⟨foldl_serve _ _, ?_⟩
  intro past _ r marks times
  refine ⟨?_, ?_, totalTime_after stopNames past, ?_⟩
  · intro m
    obtain ⟨rows, hrows, hreports⟩ := rows_after stopNames past m (Series.Keeps.refl _)
    have htimes : rows.map ChartRow.timeStamp = ((start stopNames).sampled past).map Prod.fst := by
      rw [← List.forall₂_eq_eq_eq, List.forall₂_map_left_iff, List.forall₂_map_right_iff]
      exact hreports.imp fun _ _ hreport => hreport.time
    rw [hrows, List.map_cons, htimes, times_after]
  · by_cases hclosed : Call.finish ∈ past
    · show (0 :: (milestones marks ++ if _ then _ else _)).Pairwise _
      rw [if_pos hclosed]
      exact times_increase marks
    · show (0 :: (milestones marks ++ if _ then _ else _)).Pairwise _
      rw [if_neg hclosed, List.append_nil]
      exact (milestones_increase marks).1
  · intro earlier hearlier
    exact ⟨rows_grow stopNames hearlier, series_after_of_closed stopNames hearlier⟩

/-- Time marks that are taken and others that are not, a stream with a fault in it, and time marks,
    a stream and a closing behind the first closing. -/
def sampleRequests : List Request :=
  [.handle (.timestamp 0), .handle (.timestamp 5),
    .read [.ok (.timestamp 3), .ok (.timestamp 9), .error .notUtf8, .ok (.timestamp 20)], .finish,
    .handle (.timestamp 30), .read [.ok (.timestamp 40)], .finish]

theorem rows_follow_milestones_sample :
    let calls := sampleRequests.flatMap Request.calls
    let closed := (sampleRequests.take 4).flatMap Request.calls
    calls <+: calls ∧ closed <+: calls ∧ .finish ∈ closed ∧
      sampleRequests.foldl serve (start []) = after [] calls ∧
      (∀ m, ((after [] calls).series.series m).rows.toList.map ChartRow.timeStamp = [0, 5, 9, 10]) ∧
      (after [] calls).totalTime = 10 ∧
      (after [] calls).series = (after [] closed).series := by
  intro calls closed
  have hclosed : closed <+: calls :=
    ⟨(sampleRequests.drop 4).flatMap Request.calls, by decide⟩
  have hfinish : .finish ∈ closed := by decide
  have hmarks : 0 :: (milestones (openStamps calls)
      ++ if .finish ∈ calls then closingTimes (latest (openStamps calls)) else [])
        = [0, 5, 9, 10] := by
    cbv
  have hten : (if .finish ∈ calls then endTime (latest (openStamps calls)) else 0) = 10 := by cbv
  obtain ⟨hserve, hpast⟩ := rows_follow_milestones [] sampleRequests
  obtain ⟨htimes, -, hend, hearlier⟩ := hpast calls (List.prefix_refl calls)
  exact ⟨List.prefix_refl calls, hclosed, hfinish, hserve, fun m => (htimes m).trans hmarks,
    hend.trans hten, ((hearlier closed hclosed).2 hfinish).1⟩

end Recording

end HeapProfile
