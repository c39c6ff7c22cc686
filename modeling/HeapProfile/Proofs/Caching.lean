import Std.Data.HashMap.Lemmas
import HeapProfile.Proofs.Naming

/-!
# Caching — labels made once and kept

The label of an address that has no function name recurs in many records, so it may as well be made
once and kept: `Memo` keeps every label that it made under its address and makes a label only where
it finds none, while `Resolver` makes it every time and remembers no more than the address.  Both hold
their own copy of the interned strings, and both are asked while the strings are still being interned.

What a memo keeps are labels and never strings, so nothing that was asked too early stays behind.

* **`addressLabel_injective`** — no two addresses have the same label;
* **`Mirrors.take`** — a memo that holds the strings of a resolver, and labels for just the addresses that
  the resolver remembers, answers like it and goes on to do so;
* **`unresolved_after`** — the addresses remembered are those whose labels were asked for, each once;
* **`strings_of_upToDate`** — behind `sync` a resolver knows the strings of the tables;
* **`caching_transparent`** — all this together, for every sequence of requests.
-/

namespace HeapProfile

/-! ## Labels -/

theorem digitChar_injective {m n : Nat} (hm : m < 16) (hn : n < 16)
    (h : m.digitChar = n.digitChar) : m = n := by
  have hall : ∀ a : Fin 16, ∀ b : Fin 16, a.1.digitChar = b.1.digitChar → a = b := by decide
  exact congrArg Fin.val (hall ⟨m, hm⟩ ⟨n, hn⟩ h)

/-- One digit is not several. -/
theorem toDigits_sixteen_ne {m n : Nat} (hm : m < 16) (hn : ¬ n < 16) :
    Nat.toDigits 16 m ≠ Nat.toDigits 16 n := by
  intro h
  rw [Nat.toDigits_eq_if (by decide), Nat.toDigits_eq_if (n := n) (by decide), if_pos hm, if_neg hn] at h
  have hlength := congrArg List.length h
  have hpos : 0 < (Nat.toDigits 16 (n / 16)).length := List.length_pos_iff.2 Nat.toDigits_ne_nil
  simp only [List.length_append, List.length_singleton] at hlength
  omega

/-- A number is known from its hexadecimal digits.  By induction on the number, whose last digit and
    whose others are known from the last character and the others. -/
theorem toDigits_sixteen_injective : Function.Injective (Nat.toDigits 16) := by
  intro m n h
  induction m using Nat.strong_induction_on generalizing n with
  | _ m ih =>
      by_cases hm : m < 16
      · have hn : n < 16 := not_not.1 fun hn => toDigits_sixteen_ne hm hn h
        rw [Nat.toDigits_eq_if (by decide), Nat.toDigits_eq_if (n := n) (by decide), if_pos hm,
          if_pos hn] at h
        exact digitChar_injective hm hn (List.cons.inj h).1
      · have hn : ¬ n < 16 := fun hn => toDigits_sixteen_ne hn hm h.symm
        rw [Nat.toDigits_eq_if (by decide), Nat.toDigits_eq_if (n := n) (by decide), if_neg hm,
          if_neg hn] at h
        obtain ⟨hfirst, hlast⟩ := List.append_inj' h rfl
        have hdiv : m / 16 = n / 16 := ih (m / 16) (by omega) hfirst
        have hmod : m % 16 = n % 16 :=
          digitChar_injective (Nat.mod_lt m (by decide)) (Nat.mod_lt n (by decide)) (List.cons.inj hlast).1
        omega

/-- **No two addresses have the same label.**  So a label that was made for one address is never taken
    for that of another one. -/
theorem addressLabel_injective : Function.Injective addressLabel := by
  intro a b h
  have hlist := congrArg String.toList h
  rw [toList_addressLabel, toList_addressLabel] at hlist
  exact UInt64.toNat.inj (toDigits_sixteen_injective (List.cons.inj (List.cons.inj hlist).2).2)

/-! ## Requests and answers -/

namespace Resolver

/-- What can happen while a resolver serves: a string is interned, the resolver is brought up to date, or
it is asked for something. -/
inductive Request
  | grow (value : String)
  | sync
  | resolve (ip : Ip)
  | function (ip : Ip)
  | file (ip : Ip)
  | stringify (i : StringIndex)

/-- What is answered to a request. -/
inductive Answer
  | nothing
  | location (location : Location)
  | text (text : String)

namespace Request

/-- Whether a request lets the tables grow. -/
def grows : Request → Bool
  | .grow _ => true
  | _ => false

/-- The address whose label is asked for. -/
def labelled? : Request → Option UInt64
  | .resolve ip | .function ip => if ip.function.isNone then some ip.address else none
  | .grow _ | .sync | .file _ | .stringify _ => none

/-- The tables behind a request. -/
def enter (tables : Tables) : Request → Tables
  | .grow value => tables.pushString value
  | .sync | .resolve _ | .function _ | .file _ | .stringify _ => tables

/-- The answer by all strings of the tables. -/
def direct (tables : Tables) : Request → Answer
  | .grow _ | .sync => .nothing
  | .resolve ip => .location (tables.location ip)
  | .function ip => .text (tables.ipName ip)
  | .file ip => .text (tables.string ip.file)
  | .stringify i => .text (tables.string i)

end Request

/-- The answer of a resolver. -/
def answer (r : Resolver) : Request → Answer
  | .grow _ | .sync => .nothing
  | .resolve ip => .location (r.locate ip)
  | .function ip => .text (r.functionName ip)
  | .file ip => .text (r.text ip.file)
  | .stringify i => .text (r.text i)

/-- A resolver behind a request that finds the given tables. -/
def take (r : Resolver) (tables : Tables) : Request → Resolver
  | .sync => r.sync tables.strings.entries
  | .resolve ip | .function ip => r.note ip
  | .grow _ | .file _ | .stringify _ => r

/-- A resolver that keeps the labels it made. -/
structure Memo where
  /-- The interned strings as they were at the last `sync`. -/
  strings : Array String := #[]
  /-- The labels made so far, by address. -/
  labels : Std.HashMap UInt64 String := {}

namespace Memo

/-- Takes over the strings interned since the last time, if there are any. -/
def sync (m : Memo) (strings : Array String) : Memo :=
  if strings.size ≤ m.strings.size then m
  else { m with strings := m.strings ++ strings.extract m.strings.size }

/-- The string that a number refers to, or the empty string. -/
def stringify (m : Memo) (i : StringIndex) : String :=
  if i.isNone then "" else (m.strings[i.raw.toNat - 1]?).getD ""

/-- The file of an address. -/
def file (m : Memo) (ip : Ip) : String :=
  if ip.file.isNone then "" else m.stringify ip.file

/-- The label of an address: the one that is kept, or one that is made and kept from now on. -/
def label (m : Memo) (address : UInt64) : String × Memo :=
  match m.labels[address]? with
  | some label => (label, m)
  | none => (addressLabel address, { m with labels := m.labels.insert address (addressLabel address) })

/-- The function name of an address: its own, or its label where it has none. -/
def function (m : Memo) (ip : Ip) : String × Memo :=
  if ip.function.isNone then m.label ip.address else (m.stringify ip.function, m)

/-- The location of an address. -/
def resolve (m : Memo) (ip : Ip) : Location × Memo :=
  let (function, m) := m.function ip
  ({ function, file := m.file ip, module := m.stringify ip.module, line := ip.line }, m)

/-- The number of labels kept. -/
def unresolvedCount (m : Memo) : Nat := m.labels.size

/-- The answer to a request that finds the given tables, and the memo behind it. -/
def take (m : Memo) (tables : Tables) : Request → Answer × Memo
  | .grow _ => (.nothing, m)
  | .sync => (.nothing, m.sync tables.strings.entries)
  | .resolve ip => ((.location (m.resolve ip).1), (m.resolve ip).2)
  | .function ip => ((.text (m.function ip).1), (m.function ip).2)
  | .file ip => (.text (m.file ip), m)
  | .stringify i => (.text (m.stringify i), m)

end Memo

/-! ## The memo and the resolver -/

/-- A memo holds the strings of a resolver, and labels for just the addresses that the resolver remembers. -/
structure Mirrors (m : Memo) (r : Resolver) : Prop where
  strings : m.strings = r.strings
  labels : ∀ address,
    m.labels[address]? = if address ∈ r.unresolved then some (addressLabel address) else none
  count : m.unresolvedCount = r.unresolvedCount

namespace Mirrors

variable {m : Memo} {r : Resolver}

theorem stringify (h : Mirrors m r) (i : StringIndex) : m.stringify i = r.text i := by
  rw [Memo.stringify, Resolver.text, Table.get?, h.strings, Index.isNone]
  by_cases hnone : i.raw = 0
  · rw [if_pos hnone, if_pos (beq_iff_eq.2 hnone)]
    rfl
  · rw [if_neg hnone, if_neg (mt beq_iff_eq.1 hnone)]

theorem file (h : Mirrors m r) (ip : Ip) : m.file ip = r.text ip.file := by
  rw [Memo.file]
  split
  · rename_i hnone
    rw [Resolver.text, Table.get?, if_pos (beq_iff_eq.1 hnone)]
    rfl
  · exact h.stringify ip.file

theorem sync (h : Mirrors m r) (strings : Array String) : Mirrors (m.sync strings) (r.sync strings) := by
  rw [Memo.sync]
  split
  · rename_i hle
    refine ⟨?_, h.labels, h.count⟩
    rw [h.strings] at hle
    rw [Resolver.sync, h.strings, Array.extract_empty_of_size_le_start hle, Array.append_empty]
  · exact ⟨by rw [Resolver.sync, h.strings], h.labels, h.count⟩

/-- **A label is the same, kept or made**, and is kept from then on.  Keeping it adds the address to
    those that the resolver remembers. -/
theorem label (h : Mirrors m r) (address : UInt64) :
    (m.label address).1 = addressLabel address ∧
      Mirrors (m.label address).2 { r with unresolved := r.unresolved.insert address } := by
  have hlabel := h.labels address
  have hcount : m.labels.size = r.unresolved.size := h.count
  rw [Memo.label]
  by_cases hmem : address ∈ r.unresolved
  · rw [if_pos hmem] at hlabel
    rw [hlabel]
    refine ⟨rfl, h.strings, fun other => ?_, ?_⟩
    · rw [h.labels other]
      refine if_congr ?_ rfl rfl
      rw [Std.HashSet.mem_insert, beq_iff_eq]
      exact ⟨Or.inr, fun hother => hother.elim (fun heq => heq ▸ hmem) id⟩
    · show m.labels.size = (r.unresolved.insert address).size
      rw [Std.HashSet.size_insert, if_pos hmem, hcount]
  · rw [if_neg hmem] at hlabel
    have habsent : address ∉ m.labels := by
      rw [Std.HashMap.mem_iff_isSome_getElem?, hlabel]
      exact Bool.false_ne_true
    rw [hlabel]
    refine ⟨rfl, h.strings, fun other => ?_, ?_⟩
    · show (m.labels.insert address (addressLabel address))[other]? = _
      rw [Std.HashMap.getElem?_insert, h.labels other]
      by_cases heq : address = other
      · rw [if_pos (beq_iff_eq.2 heq), if_pos (Std.HashSet.mem_insert.2 (Or.inl (beq_iff_eq.2 heq))), heq]
      · rw [if_neg (mt beq_iff_eq.1 heq)]
        refine if_congr ?_ rfl rfl
        rw [Std.HashSet.mem_insert, beq_iff_eq, or_iff_right heq]
    · show (m.labels.insert address (addressLabel address)).size = (r.unresolved.insert address).size
      rw [Std.HashSet.size_insert, if_neg hmem, Std.HashMap.size_insert, if_neg habsent, hcount]

theorem function (h : Mirrors m r) (ip : Ip) :
    (m.function ip).1 = r.functionName ip ∧ Mirrors (m.function ip).2 (r.note ip) := by
  rw [Memo.function, functionName, note]
  by_cases hnone : ip.function.isNone
  · rw [if_pos hnone, if_pos hnone, if_pos hnone]
    exact h.label ip.address
  · rw [if_neg hnone, if_neg hnone, if_neg hnone]
    exact ⟨h.stringify ip.function, h⟩

theorem resolve (h : Mirrors m r) (ip : Ip) :
    (m.resolve ip).1 = r.locate ip ∧ Mirrors (m.resolve ip).2 (r.note ip) := by
  obtain ⟨hname, hrest⟩ := h.function ip
  refine ⟨?_, hrest⟩
  -- the label may have been made for this call, but files and modules are not looked up among labels
  have htext (i : StringIndex) : (r.note ip).text i = r.text i := by
    rw [text, text, strings_note]
  show Location.mk (m.function ip).1 ((m.function ip).2.file ip) ((m.function ip).2.stringify ip.module)
      ip.line
    = r.locate ip
  rw [locate, hname, hrest.file, hrest.stringify, htext, htext]

/-- **A memo answers like the resolver**, and goes on to do so: answering and keeping are done alike,
    request by request. -/
theorem take (h : Mirrors m r) (tables : Tables) (request : Request) :
    (m.take tables request).1 = r.answer request ∧
      Mirrors (m.take tables request).2 (r.take tables request) := by
  cases request with
  | grow value => exact ⟨rfl, h⟩
  | sync => exact ⟨rfl, h.sync _⟩
  | resolve ip => exact ⟨congrArg Answer.location (h.resolve ip).1, (h.resolve ip).2⟩
  | function ip => exact ⟨congrArg Answer.text (h.function ip).1, (h.function ip).2⟩
  | file ip => exact ⟨congrArg Answer.text (h.file ip), h⟩
  | stringify i => exact ⟨congrArg Answer.text (h.stringify i), h⟩

end Mirrors

/-! ## Any sequence of requests -/

/-- Growing tables, and a resolver and a memo that serve while they grow. -/
structure Desk where
  tables : Tables
  resolver : Resolver := {}
  memo : Memo := {}

namespace Desk

/-- The state behind a request. -/
def take (d : Desk) (request : Request) : Desk where
  tables := request.enter d.tables
  resolver := d.resolver.take d.tables request
  memo := (d.memo.take d.tables request).2

/-- The state behind some requests, for a new resolver and a new memo. -/
def after (t : Tables) (requests : List Request) : Desk := requests.foldl take { tables := t }

variable (t : Tables) (requests : List Request)

theorem after_concat (request : Request) :
    after t (requests ++ [request]) = (after t requests).take request := by
  rw [after, List.foldl_append]
  rfl

theorem mirrors_after : Mirrors (after t requests).memo (after t requests).resolver := by
  induction requests using List.reverseRecOn with
  | nil => exact ⟨rfl, fun address => by simp [after], rfl⟩
  | append_singleton requests request ih =>
      rw [after_concat]
      exact (ih.take _ request).2

/-! ### Which addresses are remembered -/

/-- A request labels the address it makes a label for, if it makes one, and no other. -/
theorem unresolved_take (r : Resolver) (tables : Tables) (request : Request) :
    (r.take tables request).unresolved = match request.labelled? with
      | some address => r.unresolved.insert address
      | none => r.unresolved := by
  have hnote (ip : Ip) : (r.note ip).unresolved
      = match (if ip.function.isNone then some ip.address else none : Option UInt64) with
        | some address => r.unresolved.insert address
        | none => r.unresolved := by
    rw [note]
    split <;> rfl
  cases request with
  | resolve ip => exact hnote ip
  | function ip => exact hnote ip
  | _ => rfl

/-- **The addresses remembered** are those whose labels were asked for, each of them once, however
    often that was. -/
theorem unresolved_after :
    (∀ address, address ∈ (after t requests).resolver.unresolved ↔
      address ∈ requests.filterMap Request.labelled?) ∧
    (after t requests).resolver.unresolvedCount
      = (requests.filterMap Request.labelled?).toFinset.card := by
  induction requests using List.reverseRecOn with
  | nil => exact ⟨fun address => by simp [after], rfl⟩
  | append_singleton requests request ih =>
      obtain ⟨hmem, hcount⟩ := ih
      rw [after_concat, List.filterMap_append, unresolvedCount, take, unresolved_take]
      cases hlabelled : request.labelled? with
      | none =>
          rw [List.filterMap_cons_none hlabelled, List.filterMap_nil, List.append_nil]
          exact ⟨hmem, hcount⟩
      | some address =>
          rw [List.filterMap_cons_some hlabelled, List.filterMap_nil]
          refine ⟨fun other => ?_, ?_⟩
          · rw [Std.HashSet.mem_insert, beq_iff_eq, hmem, List.mem_append, List.mem_singleton, or_comm,
              eq_comm]
          · rw [unresolvedCount] at hcount
            have hset : (requests.filterMap Request.labelled? ++ [address]).toFinset
                = insert address (requests.filterMap Request.labelled?).toFinset := by
              rw [List.toFinset_append, Finset.union_comm]
              rfl
            rw [hset, Std.HashSet.size_insert, hcount, Finset.card_insert_eq_ite]
            exact if_congr ((hmem address).trans List.mem_toFinset.symm) rfl rfl

/-! ### Which strings are known -/

/-- A request takes no string away from a resolver, and gives it none that the tables do not have. -/
theorem strings_take {r : Resolver} {tables : Tables} (h : r.KnowsFirst tables) (request : Request) :
    r.strings.toList <+: (r.take tables request).strings.toList ∧
      (r.take tables request).KnowsFirst tables := by
  have hnote (ip : Ip) : r.strings.toList <+: (r.note ip).strings.toList ∧
      (r.note ip).KnowsFirst tables := by
    rw [KnowsFirst, strings_note]
    exact ⟨List.prefix_refl _, h⟩
  cases request with
  | sync =>
      rw [Resolver.take, KnowsFirst, strings_sync h]
      exact ⟨h, List.prefix_refl _⟩
  | resolve ip => exact hnote ip
  | function ip => exact hnote ip
  | _ => exact ⟨List.prefix_refl _, h⟩

/-- The resolver knows the first strings of the tables. -/
theorem knowsFirst_after : (after t requests).resolver.KnowsFirst (after t requests).tables := by
  induction requests using List.reverseRecOn with
  | nil => exact knowsFirst_new t
  | append_singleton requests request ih =>
      rw [after_concat]
      refine (strings_take ih request).2.trans ?_
      show _ <+: (request.enter _).strings.entries.toList
      cases request with
      | grow value =>
          show _ <+: (Array.push _ value).toList
          rw [Array.toList_push]
          exact List.prefix_append _ _
      | _ => exact List.prefix_refl _

/-- The tables were taken over by a `sync`, and have not grown since. -/
def UpToDate (requests : List Request) : Prop :=
  ∃ before later, requests = before ++ .sync :: later ∧ ∀ request ∈ later, request.grows = false

/-- **Behind `sync` a resolver knows the strings of the tables**, until these grow.  Requests for names
    and labels change no string on either side. -/
theorem strings_of_upToDate {requests : List Request} (h : UpToDate requests) :
    (after t requests).resolver.strings = (after t requests).tables.strings.entries := by
  obtain ⟨before, later, rfl, hlater⟩ := h
  induction later using List.reverseRecOn with
  | nil =>
      rw [after_concat]
      exact strings_sync (knowsFirst_after t before)
  | append_singleton later request ih =>
      have hrest := ih fun other hother => hlater other (List.mem_append_left _ hother)
      have hgrows := hlater request (List.mem_append_right _ (List.mem_singleton_self _))
      rw [← List.cons_append, ← List.append_assoc, after_concat]
      obtain ⟨hkept, hfirst⟩ := strings_take (knowsFirst_after t (before ++ .sync :: later)) request
      rw [hrest] at hkept
      have hsame : request.enter (after t (before ++ .sync :: later)).tables
          = (after t (before ++ .sync :: later)).tables := by
        cases request with
        | grow value => exact Bool.noConfusion hgrows
        | _ => rfl
      rw [take, hsame]
      exact Array.toList_inj.1 (hfirst.eq_of_length_le hkept.length_le)

/-- A resolver that knows the strings of the tables answers as they do. -/
theorem answer_of_strings {r : Resolver} {tables : Tables} (h : r.strings = tables.strings.entries)
    (request : Request) : r.answer request = request.direct tables := by
  have htext (i : StringIndex) : r.text i = tables.string i := congrFun (text_of_strings h) i
  cases request with
  | resolve ip => exact congrArg Answer.location (congrFun (locate_of_strings h) ip)
  | function ip => exact congrArg Answer.text (congrFun (functionName_of_strings h) ip)
  | file ip => exact congrArg Answer.text (htext ip.file)
  | stringify i => exact congrArg Answer.text (htext i)
  | _ => rfl

/-- An address without a function name is called by its label, whatever was asked for before. -/
theorem function_of_isNone {ip : Ip} (h : ip.function.isNone) :
    ((after t requests).memo.function ip).1 = addressLabel ip.address := by
  rw [((mirrors_after t requests).function ip).1, functionName, if_pos h]

/-- **Keeping labels changes no answer.**  While the tables grow, and whatever was asked for before, a memo
answers like the resolver that makes every label anew; once its strings are up to date, both answer as the
tables do.  The labels that it keeps are as many as the addresses for which one was asked, and two addresses
without function names are called the same if and only if they are the same, at any time and by any memo. -/
theorem caching_transparent (t : Tables) (requests : List Request) :
    let d := after t requests
    (∀ request, (d.memo.take d.tables request).1 = d.resolver.answer request) ∧
    (UpToDate requests → ∀ request, (d.memo.take d.tables request).1 = request.direct d.tables) ∧
    d.memo.unresolvedCount = d.resolver.unresolvedCount ∧
    d.memo.unresolvedCount = (requests.filterMap Request.labelled?).toFinset.card ∧
    ∀ (t' : Tables) (requests' : List Request) (ip ip' : Ip),
      ip.function.isNone → ip'.function.isNone →
        ((d.memo.function ip).1 = ((after t' requests').memo.function ip').1 ↔
          ip.address = ip'.address) := by
  intro d
  have hmirrors : Mirrors d.memo d.resolver := mirrors_after t requests
  have hanswer (request : Request) : (d.memo.take d.tables request).1 = d.resolver.answer request :=
    (hmirrors.take d.tables request).1
  refine ⟨hanswer, fun hdate request => ?upToDate, hmirrors.count,
    hmirrors.count.trans (unresolved_after t requests).2, fun t' requests' ip ip' hip hip' => ?labels⟩
  case upToDate =>
    rw [hanswer]
    exact answer_of_strings (strings_of_upToDate t hdate) request
  case labels =>
    rw [function_of_isNone t requests hip, function_of_isNone t' requests' hip']
    exact addressLabel_injective.eq_iff

/-- An address whose function was asked for before its name was interned, and one that has none. -/
def earlyRequests : List Request :=
  [.resolve { address := 16, function := ⟨1⟩ }, .function { address := 255 }, .grow "main", .sync,
    .function { address := 255 }]

theorem caching_transparent_sample :
    let d := after {} earlyRequests
    UpToDate earlyRequests ∧
    (d.memo.take d.tables (.resolve { address := 16, function := ⟨1⟩ })).1
      = .location { function := "main" } ∧
    (d.memo.take d.tables (.function { address := 255 })).1 = .text "0xff" ∧
    d.memo.unresolvedCount = 1 := by
  have hdate : UpToDate earlyRequests :=
    ⟨earlyRequests.take 3, [.function { address := 255 }], rfl,
      fun request h => by rw [List.mem_singleton.1 h]; rfl⟩
  obtain ⟨-, hanswers, -, hcount, -⟩ := caching_transparent {} earlyRequests
  refine ⟨hdate, (hanswers hdate _).trans ?_, (hanswers hdate _).trans ?_, hcount.trans (by decide)⟩
  · rfl
  · rfl

end Desk

end Resolver

end HeapProfile
