import Mathlib.Logic.Relation
import HeapProfile.Delivery

/-!
# Handover — a profile goes through a channel piece by piece

`schedule` lists the kinds of messages that make up a delivery, and `Misses` says how some messages
miss them at the first place where they do.  Collecting accepts the messages that miss nothing, and
fails with what is missed otherwise.

`Handover` is the background run as two parties with a channel between them: the worker sends its
messages in order and hangs up, the requester takes them out as long as it awaits another one, and each
goes on whenever it can.  What was taken, what is in the channel and what was not sent yet are together
always the messages of the outcome, so in whatever order the two go on, the answer is the outcome.

* **`delivered_or_misses`** — messages deliver a profile or miss something that is due;
* **`collect_of_misses`** — what is missed is the failure of collecting;
* **`Handover.faithful`** — every way of handing over ends, with the outcome as the answer;
* **`collect_answers_schedule`** — all of this together, for every run.
-/

namespace HeapProfile

namespace Delivery

open Message

/-- What is due at one place of a delivery: the kind of a message, and its name in complaints. -/
structure Due where
  kind : String
  name : String

/-- What is due in a delivery, in order. -/
def schedule : List Due :=
  [⟨"summary", "summary"⟩, ⟨"bottom_up", "bottom-up"⟩, ⟨"consumed", "consumed chart"⟩,
    ⟨"allocations", "allocations chart"⟩, ⟨"allocated", "allocated chart"⟩,
    ⟨"top_down", "top-down"⟩, ⟨"flame_graph", "flame graph"⟩, ⟨"finished", "finished"⟩]

/-- How messages miss what is due, at the first place where they do: they end there, they tell of a
failure, or they have a message of another kind. -/
inductive Misses : List Due → List Message → RunFailure → Prop where
  | ended {due : Due} {dues : List Due} : Misses (due :: dues) [] .workerLost
  | failed {due : Due} {dues : List Due} {failure : RunFailure} {rest : List Message} :
      Misses (due :: dues) (.failed failure :: rest) failure
  | other {due : Due} {dues : List Due} {message : Message} {rest : List Message} :
      (∀ failure, message ≠ .failed failure) → message.kind ≠ due.kind →
      Misses (due :: dues) (message :: rest) (.violation (.messageExpected due.name))
  | later {due : Due} {dues : List Due} {message : Message} {rest : List Message}
      {failure : RunFailure} : message.kind = due.kind → Misses dues rest failure →
      Misses (due :: dues) (message :: rest) failure

/-- The messages that deliver a profile with a forest to fold. -/
def delivered (p : Profile) (flame : CostTree) : List Message :=
  [.summary p.summary, .bottomUp p.bottomUp, .consumedChart p.charts.consumed,
    .allocationsChart p.charts.allocations, .allocatedChart p.charts.allocated,
    .topDown p.topDown, .flameGraph flame, .finished]

variable {due : Due} {dues : List Due} {messages : List Message} {failure : RunFailure}

/-! ## Messages that miss nothing -/

/-- Messages have all the kinds that are due, or they miss one.  By induction on what is due: they end,
    fail or differ at the first message that does not fit. -/
theorem meets_or_misses (dues : List Due) (messages : List Message) :
    (∃ met rest, messages = met ++ rest ∧ met.map kind = dues.map Due.kind) ∨
      ∃ failure, Misses dues messages failure := by
  induction dues generalizing messages with
  | nil => exact Or.inl ⟨[], messages, rfl, rfl⟩
  | cons due dues ih =>
      cases messages with
      | nil => exact Or.inr ⟨_, .ended⟩
      | cons message rest =>
          by_cases hkind : message.kind = due.kind
          · rcases ih rest with ⟨met, behind, rfl, hmet⟩ | ⟨failure, hmisses⟩
            · refine Or.inl ⟨message :: met, behind, rfl, ?_⟩
              rw [List.map_cons, List.map_cons, hkind, hmet]
            · exact Or.inr ⟨failure, .later hkind hmisses⟩
          · by_cases hfailed : ∃ failure, message = .failed failure
            · obtain ⟨failure, rfl⟩ := hfailed
              exact Or.inr ⟨failure, .failed⟩
            · exact Or.inr ⟨_, .other (not_exists.1 hfailed) hkind⟩

/-- Messages of all the kinds that are due in a delivery deliver a profile.  Each kind is that of one
    form of message, so the eight are taken apart in turn. -/
theorem exists_delivered (h : messages.map kind = schedule.map Due.kind) :
    ∃ p flame, messages = delivered p flame := by
  simp only [schedule, List.map_cons, List.map_nil, List.map_eq_cons_iff, List.map_eq_nil_iff] at h
  obtain ⟨m₁, _, rfl, h₁, m₂, _, rfl, h₂, m₃, _, rfl, h₃, m₄, _, rfl, h₄, m₅, _, rfl, h₅,
    m₆, _, rfl, h₆, m₇, _, rfl, h₇, m₈, _, rfl, h₈, rfl⟩ := h
  obtain ⟨summary, rfl⟩ : ∃ s, m₁ = .summary s := by cases m₁ <;> simp [kind] at h₁ ⊢
  obtain ⟨bottomUp, rfl⟩ : ∃ t, m₂ = .bottomUp t := by cases m₂ <;> simp [kind] at h₂ ⊢
  obtain ⟨consumed, rfl⟩ : ∃ c, m₃ = .consumedChart c := by cases m₃ <;> simp [kind] at h₃ ⊢
  obtain ⟨allocations, rfl⟩ : ∃ c, m₄ = .allocationsChart c := by cases m₄ <;> simp [kind] at h₄ ⊢
  obtain ⟨allocated, rfl⟩ : ∃ c, m₅ = .allocatedChart c := by cases m₅ <;> simp [kind] at h₅ ⊢
  obtain ⟨topDown, rfl⟩ : ∃ t, m₆ = .topDown t := by cases m₆ <;> simp [kind] at h₆ ⊢
  obtain ⟨flame, rfl⟩ : ∃ t, m₇ = .flameGraph t := by cases m₇ <;> simp [kind] at h₇ ⊢
  obtain rfl : m₈ = .finished := by cases m₈ <;> simp [kind] at h₈ ⊢
  exact ⟨{ summary, bottomUp, topDown, charts := { consumed, allocations, allocated } }, flame, rfl⟩

/-- **Messages deliver a profile,** whatever follows, or they miss something that is due.  So the cases
    of a collection are known from its messages alone. -/
theorem delivered_or_misses (messages : List Message) :
    (∃ p flame rest, messages = delivered p flame ++ rest) ∨
      ∃ failure, Misses schedule messages failure := by
  rcases meets_or_misses schedule messages with ⟨met, rest, rfl, hmet⟩ | hmisses
  · obtain ⟨p, flame, rfl⟩ := exists_delivered hmet
    exact Or.inl ⟨p, flame, rest, rfl⟩
  · exact Or.inr hmisses

theorem collect_delivered (p : Profile) (flame : CostTree) (rest : List Message) :
    collect (delivered p flame ++ rest) = .ok p := rfl

/-! ## Messages that miss something -/

/-- Taking what is due fails with what the messages miss there, or leaves them missing the same further
on. -/
theorem Misses.bind_expect {α β : Type} {content? : Message → Option α}
    {next : α × List Message → Except RunFailure β} (h : Misses (due :: dues) messages failure)
    (hcontent : ∀ message, content? message = none ↔ message.kind ≠ due.kind)
    (hfailed : due.kind ≠ "failed")
    (hnext : ∀ content rest, Misses dues rest failure → next (content, rest) = .error failure) :
    (expect due.name content? messages >>= next) = .error failure := by
  cases h with
  | ended => rfl
  | failed => rfl
  | @other _ _ message rest hother hkind =>
      rw [expect.eq_def]
      cases message with
      | failed failure => exact absurd rfl (hother failure)
      | _ => simp only [(hcontent _).2 hkind]; rfl
  | @later _ _ message rest _ hkind hlater =>
      obtain ⟨content, hsome⟩ : ∃ content, content? message = some content :=
        Option.ne_none_iff_exists'.1 fun hnone => (hcontent message).1 hnone hkind
      rw [expect.eq_def]
      cases message with
      | failed failure => exact absurd hkind.symm hfailed
      | _ => simp only [hsome]; exact hnext content rest hlater

/-- **What is missed is the failure of collecting.**  A failure is reported as it is, a message of
    another kind as such, and messages that end too early as a worker that is lost. -/
theorem collect_of_misses (h : Misses schedule messages failure) :
    collect messages = .error failure := by
  -- one step for each message that is due, each with the kinds that it takes
  rw [collect]
  refine h.bind_expect (by intro m; cases m <;> simp [kind]) (by decide) fun summary rest h => ?_
  refine h.bind_expect (by intro m; cases m <;> simp [kind]) (by decide) fun bottomUp rest h => ?_
  refine h.bind_expect (by intro m; cases m <;> simp [kind]) (by decide) fun consumed rest h => ?_
  refine h.bind_expect (by intro m; cases m <;> simp [kind]) (by decide) fun allocations rest h => ?_
  refine h.bind_expect (by intro m; cases m <;> simp [kind]) (by decide) fun allocated rest h => ?_
  refine h.bind_expect (by intro m; cases m <;> simp [kind]) (by decide) fun topDown rest h => ?_
  refine h.bind_expect (by intro m; cases m <;> simp [kind]) (by decide) fun flame rest h => ?_
  refine h.bind_expect (by intro m; cases m <;> simp [kind]) (by decide) fun finished rest h => ?_
  exact nomatch h

theorem collect_eq_ok_iff {p : Profile} :
    collect messages = .ok p ↔ ∃ flame rest, messages = delivered p flame ++ rest := by
  constructor
  · intro h
    rcases delivered_or_misses messages with ⟨p', flame, rest, rfl⟩ | ⟨failure, hmisses⟩
    · rw [collect_delivered, Except.ok.injEq] at h
      exact ⟨flame, rest, by rw [h]⟩
    · rw [collect_of_misses hmisses] at h
      exact nomatch h
  · rintro ⟨flame, rest, rfl⟩
    exact collect_delivered p flame rest

theorem collect_eq_error_iff : collect messages = .error failure ↔ Misses schedule messages failure := by
  refine ⟨fun h => ?_, collect_of_misses⟩
  rcases delivered_or_misses messages with ⟨p, flame, rest, rfl⟩ | ⟨failure', hmisses⟩
  · rw [collect_delivered] at h
    exact nomatch h
  · rw [collect_of_misses hmisses, Except.error.injEq] at h
    exact h ▸ hmisses

/-- Messages that break off before all of the kinds that are due have come end too early.  By induction
    on what is due. -/
theorem misses_of_part {whole : List Message} (hwhole : whole.map kind = dues.map Due.kind)
    (hle : messages <+: whole) (hne : messages ≠ whole) : Misses dues messages .workerLost := by
  induction dues generalizing messages whole with
  | nil =>
      rw [List.map_nil, List.map_eq_nil_iff] at hwhole
      subst hwhole
      exact absurd (List.prefix_nil.1 hle) hne
  | cons due dues ih =>
      cases messages with
      | nil => exact .ended
      | cons message rest =>
          obtain ⟨behind, rfl⟩ := hle
          rw [List.cons_append, List.map_cons, List.map_cons, List.cons.injEq] at hwhole
          refine .later hwhole.1 (ih hwhole.2 (List.prefix_append rest behind) fun h => hne ?_)
          rw [List.cons_append, ← h]

end Delivery

/-! ## Two parties and a channel -/

/-- A delivery under way. -/
structure Handover where
  /-- What the worker has still to send. -/
  unsent : List Message
  /-- Whether the worker let go of the channel. -/
  hungUp : Bool := false
  /-- What is in the channel, in the order in which it was sent. -/
  inFlight : List Message := []
  /-- What the requester took out of the channel. -/
  taken : List Message := []
  /-- What the requester made of it. -/
  answer? : Option (Except RunFailure Profile) := none

namespace Handover

open Message Delivery

/-- The worker knows its outcome, and nothing is sent yet. -/
def start (outcome : Except RunFailure Profile) : Handover := { unsent := ofOutcome outcome }

/-- Whether another message is awaited: all that was taken was due, and more is. -/
def Awaits (taken : List Message) : Prop :=
  taken.map kind <+: schedule.map Due.kind ∧ taken.map kind ≠ schedule.map Due.kind

/-- One step of one of the two parties. -/
inductive Step : Handover → Handover → Prop where
  | send {h : Handover} {message : Message} {rest : List Message} : h.unsent = message :: rest →
      Step h { h with unsent := rest, inFlight := h.inFlight ++ [message] }
  | hangUp {h : Handover} : h.unsent = [] → h.hungUp = false → Step h { h with hungUp := true }
  | take {h : Handover} {message : Message} {rest : List Message} : h.answer? = none →
      Awaits h.taken → h.inFlight = message :: rest →
      Step h { h with inFlight := rest, taken := h.taken ++ [message] }
  /-- No further message is awaited, or none can come any more. -/
  | answer {h : Handover} : h.answer? = none →
      (Awaits h.taken → h.inFlight = [] ∧ h.hungUp = true) →
      Step h { h with answer? := some (collect h.taken) }

/-- Some steps of the two parties, in any order. -/
def Steps : Handover → Handover → Prop := Relation.ReflTransGen Step

/-- Whether an outcome reaches the requester, in whatever order the two parties take their steps. -/
structure Faithful (outcome : Except RunFailure Profile) : Prop where
  /-- No answer but the outcome is ever given. -/
  answer_eq : ∀ {h answer}, Steps (start outcome) h → h.answer? = some answer → answer = outcome
  /-- Where neither party can go on, the worker is done and the answer is there. -/
  done : ∀ {h}, Steps (start outcome) h → (∀ h', ¬ Step h h') →
    h.unsent = [] ∧ h.hungUp = true ∧ h.answer? = some outcome
  /-- The two cannot go on for ever. -/
  finite : Acc (fun h' h => Step h h') (start outcome)

variable {outcome : Except RunFailure Profile} {h h' : Handover}

/-- What the messages of an outcome are collected to. -/
theorem collect_ofOutcome (outcome : Except RunFailure Profile) :
    collect (ofOutcome outcome) = outcome := by
  cases outcome <;> rfl

/-- What is due in a delivery is awaited until all messages of the outcome are taken.  A delivery has
    the kinds of the schedule; a failure is one message, due nowhere. -/
theorem awaits_or_eq {taken : List Message} (hle : taken <+: ofOutcome outcome) :
    Awaits taken ∧ taken ≠ ofOutcome outcome ∨ ¬ Awaits taken ∧ taken = ofOutcome outcome := by
  cases outcome with
  | ok p =>
      have hkinds : (ofOutcome (.ok p)).map kind = schedule.map Due.kind := rfl
      by_cases heq : taken = ofOutcome (.ok p)
      · exact Or.inr ⟨fun hawaits => hawaits.2 (by rw [heq, hkinds]), heq⟩
      · refine Or.inl ⟨⟨hkinds ▸ hle.map kind, fun hall => heq ?_⟩, heq⟩
        have hlength := congrArg List.length (hall.trans hkinds.symm)
        rw [List.length_map, List.length_map] at hlength
        exact hle.eq_of_length hlength
  | error failure =>
      -- a failure is due nowhere
      rcases List.prefix_cons_iff.1 hle with rfl | ⟨rest, rfl, hrest⟩
      · exact Or.inl ⟨⟨List.nil_prefix, fun hnil => nomatch hnil⟩, fun hnil => nomatch hnil⟩
      · obtain rfl := List.prefix_nil.1 hrest
        refine Or.inr ⟨fun hawaits => ?_, rfl⟩
        have hkind : "failed" = "summary" := (List.cons_prefix_cons.1 hawaits.1).1
        exact absurd hkind (by decide)

/-- What the two parties keep to: no message is lost, doubled or overtaken, and an answer is the
outcome. -/
structure Kept (outcome : Except RunFailure Profile) (h : Handover) : Prop where
  messages : h.taken ++ h.inFlight ++ h.unsent = ofOutcome outcome
  unsent : h.hungUp = true → h.unsent = []
  answer : ∀ {answer}, h.answer? = some answer → answer = outcome

theorem kept_start (outcome : Except RunFailure Profile) : Kept outcome (start outcome) where
  messages := rfl
  unsent := fun hup => nomatch hup
  answer := fun hanswer => nomatch hanswer

theorem Kept.taken_isPrefix (hk : Kept outcome h) : h.taken <+: ofOutcome outcome :=
  ⟨h.inFlight ++ h.unsent, by rw [← List.append_assoc, hk.messages]⟩

/-- Where no further message is awaited or none can come, all messages were taken. -/
theorem Kept.taken_eq (hk : Kept outcome h)
    (hover : Awaits h.taken → h.inFlight = [] ∧ h.hungUp = true) : h.taken = ofOutcome outcome := by
  rcases awaits_or_eq hk.taken_isPrefix with ⟨hawaits, hne⟩ | ⟨-, heq⟩
  · obtain ⟨hflight, hup⟩ := hover hawaits
    have hall := hk.messages
    rw [hflight, hk.unsent hup, List.append_nil, List.append_nil] at hall
    exact absurd hall hne
  · exact heq

/-- One step keeps to it, whichever party takes it: a message is sent or taken, the worker hangs up, or
    the requester answers.  The messages stay in order through all of these. -/
theorem Kept.step (hk : Kept outcome h) (hstep : Step h h') : Kept outcome h' := by
  have hall := hk.messages
  cases hstep with
  | @send message rest hunsent =>
      refine ⟨?_, fun hup => ?_, hk.answer⟩
      · rw [hunsent] at hall
        simpa using hall
      · rw [hk.unsent hup] at hunsent
        exact nomatch hunsent
  | hangUp hunsent _ => exact ⟨hall, fun _ => hunsent, hk.answer⟩
  | @take message rest _ _ hflight =>
      refine ⟨?_, hk.unsent, hk.answer⟩
      rw [hflight] at hall
      simpa using hall
  | answer _ hover =>
      refine ⟨hall, hk.unsent, fun hanswer => ?_⟩
      rw [← Option.some.inj hanswer, hk.taken_eq hover, collect_ofOutcome]

theorem Kept.steps (hk : Kept outcome h) (hsteps : Steps h h') : Kept outcome h' := by
  induction hsteps with
  | refl => exact hk
  | tail _ hstep ih => exact ih.step hstep

/-- How many steps are left: two for each message that is not sent, one for each that is in the channel,
one to hang up and one to answer. -/
def remaining (h : Handover) : Nat :=
  2 * h.unsent.length + h.inFlight.length + (if h.hungUp then 0 else 1) +
    if h.answer?.isSome then 0 else 1

/-- **Every step leaves fewer steps**, so every handover ends. -/
theorem Step.remaining_lt (hstep : Step h h') : h'.remaining < h.remaining := by
  cases hstep with
  | send hunsent =>
      simp only [remaining, hunsent, List.length_append, List.length_cons, List.length_nil]
      omega
  | hangUp _ hup =>
      simp only [remaining, hup, if_true, Bool.false_eq_true, if_false]
      omega
  | take _ _ hflight =>
      simp only [remaining, hflight, List.length_cons]
      omega
  | answer hnone _ =>
      simp only [remaining, hnone, Option.isSome_some, Option.isSome_none, if_true,
        Bool.false_eq_true, if_false]
      omega

/-- Where neither party can go on, the worker is done and the requester has answered.  A requester that
    still awaits something can always take it or notice that nobody will send it. -/
theorem Kept.done (hk : Kept outcome h) (hstuck : ∀ h', ¬ Step h h') :
    h.unsent = [] ∧ h.hungUp = true ∧ h.answer? = some outcome := by
  have hunsent : h.unsent = [] := by
    cases hunsent : h.unsent with
    | nil => rfl
    | cons message rest => exact absurd (.send hunsent) (hstuck _)
  have hup : h.hungUp = true := by
    cases hup : h.hungUp with
    | true => rfl
    | false => exact absurd (.hangUp hunsent hup) (hstuck _)
  refine ⟨hunsent, hup, ?_⟩
  cases hanswer : h.answer? with
  | some answer => rw [hk.answer hanswer]
  | none =>
      -- the requester could take what is in the channel, or answer if there is nothing
      refine absurd (.answer hanswer fun hawaits => ⟨?_, hup⟩) (hstuck _)
      cases hflight : h.inFlight with
      | nil => rfl
      | cons message rest => exact absurd (.take hanswer hawaits hflight) (hstuck _)

/-- **Every way of handing over ends, with the outcome as the answer.**  Each step sends, takes, hangs
    up or answers, so there are only so many, and the invariant tells the answer where they stop. -/
theorem faithful (outcome : Except RunFailure Profile) : Faithful outcome where
  answer_eq := fun hsteps hanswer => ((kept_start outcome).steps hsteps).answer hanswer
  done := fun hsteps hstuck => ((kept_start outcome).steps hsteps).done hstuck
  finite := by
    have hsub : Subrelation (fun h' h => Step h h') (InvImage (· < ·) remaining) :=
      fun hstep => hstep.remaining_lt
    exact hsub.accessible ((InvImage.wf remaining Nat.lt_wfRel.wf).apply _)

end Handover

namespace Delivery

/-- **Collecting accepts the messages of a delivery in their order, and nothing else.**  It yields a
profile if and only if the first eight messages carry its parts in the order in which they are due, with
any forest to fold; and it fails if and only if something that is due is missed, with what is missed at
the first such place.  So a profile is collected from its own messages, and what they break off to is
lost.  A run in the background therefore answers what the run itself yields, in whatever order the
worker sends and the requester takes. -/
theorem collect_answers_schedule :
    (∀ messages p, collect messages = .ok p ↔ ∃ flame rest, messages =
      [.summary p.summary, .bottomUp p.bottomUp, .consumedChart p.charts.consumed,
        .allocationsChart p.charts.allocations, .allocatedChart p.charts.allocated,
        .topDown p.topDown, .flameGraph flame, .finished] ++ rest) ∧
    (∀ messages failure, collect messages = .error failure ↔ Misses schedule messages failure) ∧
    (∀ p : Profile, collect p.messages = .ok p ∧
      ∀ messages, messages <+: p.messages → messages ≠ p.messages →
        collect messages = .error .workerLost) ∧
    ∀ stopNames stream, let outcome := (Run.run stopNames none none stream).1
      wait outcome = outcome ∧ Handover.Faithful outcome := by
  refine ⟨fun _ _ => collect_eq_ok_iff, fun _ _ => collect_eq_error_iff, fun p => ⟨rfl, ?_⟩, ?_⟩
  · exact fun messages hle hne => collect_of_misses (misses_of_part rfl hle hne)
  · exact fun stopNames stream => ⟨Handover.collect_ofOutcome _, Handover.faithful _⟩

/-- Charts that change places are noticed. -/
example (summary : Summary) (tree : CostTree) (chart : Chart) (rest : List Message) :
    collect (.summary summary :: .bottomUp tree :: .allocationsChart chart :: rest)
      = .error (.violation (.messageExpected "consumed chart")) := rfl

end Delivery

end HeapProfile
