import Mathlib
import EffectScript.Proofs.Collision

/-!
# Spelling tables as finite maps

A table is a list of entries that is searched by bisection, but nothing of that shows: two tables in
order that give the same spelling for every id are the same table (`eq_of_lookup?`).  So what an
operation does is said by the spellings that can be looked up behind it, and its laws are those of
finite maps.

* Requests to insert spellings, made one after the other, keep for every id the first spelling that
  was accepted.  Which pairs were accepted is all that the table depends on.
* Merging is the union in which the second table has precedence.  Where tables do not contradict
  each other (`Consistent`), the order in which they are merged does not matter, and that is the
  only case in which it does not.

Main statements: `requests_fill_map`, `merge_unites`.
-/

namespace EffectScript

namespace SpellingTable

variable {a b c : SpellingTable} {id : TokenId} {spelling : Bytes}

/-! ## 1. A table is told by what it spells -/

@[simp] theorem isSorted_empty : empty.isSorted := rfl

@[simp] theorem lookup?_empty (id : TokenId) : empty.lookup? id = none := by
  rw [lookup?, find?_eq isSorted_empty]
  rfl

theorem lookup?_eq_some_iff (ha : a.isSorted) :
    a.lookup? id = some spelling ↔ ⟨id, spelling⟩ ∈ a.entries := by
  unfold lookup?
  rw [Option.map_eq_some_iff]
  constructor
  · rintro ⟨e, hfind, rfl⟩
    obtain ⟨hmem, rfl⟩ := (find?_eq_some_iff ha).mp hfind
    exact hmem
  · intro hmem
    exact ⟨_, (find?_eq_some_iff ha).mpr ⟨hmem, rfl⟩, rfl⟩

/-- **Tables in order with the same spellings are the same.**  Their entries are the same, and there
is only one order for them. -/
theorem eq_of_lookup? (ha : a.isSorted) (hb : b.isSorted) (h : ∀ id, a.lookup? id = b.lookup? id) :
    a = b := by
  have hpairs := (ascending_iff a.entries).mp ha
  have hpairs' := (ascending_iff b.entries).mp hb
  have hnodup : ∀ {entries : List SpellingEntry}, (entries.Pairwise fun e f => e.id < f.id) →
      entries.Nodup := by
    intro entries hentries
    refine hentries.imp ?_
    rintro e _ hlt rfl
    exact UInt32.lt_irrefl _ hlt
  have hmem : ∀ e, e ∈ a.entries ↔ e ∈ b.entries := by
    rintro ⟨id, spelling⟩
    rw [← lookup?_eq_some_iff ha, ← lookup?_eq_some_iff hb, h id]
  have hperm : a.entries.Perm b.entries :=
    (List.perm_ext_iff_of_nodup (hnodup hpairs) (hnodup hpairs')).mpr hmem
  have hentries : a.entries = b.entries := by
    refine hperm.eq_of_pairwise ?_ hpairs hpairs'
    intro e f _ _ hlt hgt
    exact absurd (UInt32.lt_trans hlt hgt) (UInt32.lt_irrefl _)
  cases a
  cases b
  simpa using hentries

/-! ## 2. Requests -/

/-- What a table is asked to take in. -/
inductive Request where
  | insert (id : TokenId) (spelling : Bytes)
  | intern (spelling : Bytes)

/-- The pair that a request is to put into the table.  A keyword needs none. -/
def Request.pair? : Request → Option (TokenId × Bytes)
  | .insert id spelling => some (id, spelling)
  | .intern spelling =>
    if (Vocabulary.find? spelling).isSome then none else some (TokenId.hash spelling, spelling)

/-- The table with what is requested, or the cause that it is refused. -/
def answer (table : SpellingTable) : Request → Except Cause SpellingTable
  | .insert id spelling => table.insert id spelling
  | .intern spelling => (table.intern spelling).map (·.2)

/-- The table behind a request; a refused one leaves it as it is. -/
def ask (table : SpellingTable) (request : Request) : SpellingTable :=
  match table.answer request with
  | .ok table => table
  | .error _ => table

/-- The pair that a request puts into the table, or finds there, if it is not refused. -/
def accepted? (table : SpellingTable) (request : Request) : Option (TokenId × Bytes) :=
  match table.answer request with
  | .ok _ => request.pair?
  | .error _ => none

/-- The table behind some requests. -/
def askAll (table : SpellingTable) (requests : List Request) : SpellingTable :=
  requests.foldl ask table

/-- The pairs that are accepted, in the order of the requests. -/
def accepted (table : SpellingTable) : List Request → List (TokenId × Bytes)
  | [] => []
  | request :: requests =>
    (table.accepted? request).toList ++ (table.ask request).accepted requests

/-- Both kinds of requests are insertions of their pairs. -/
theorem answer_eq (table : SpellingTable) (request : Request) :
    table.answer request
      = request.pair?.elim (.ok table) fun pair => table.insert pair.1 pair.2 := by
  cases request with
  | insert id spelling => rfl
  | intern spelling =>
    simp only [answer, intern, Request.pair?]
    cases Vocabulary.find? spelling with
    | some id => rfl
    | none =>
      simp only [Option.isSome_none, Bool.false_eq_true, if_false, Option.elim_some]
      cases table.insert (TokenId.hash spelling) spelling <;> rfl

/-- What a request can come to. -/
inductive Outcome (table : SpellingTable) (request : Request) : Except Cause SpellingTable → Prop
  /-- There is nothing to put in. -/
  | keyword (hpair : request.pair? = none) : Outcome table request (.ok table)
  /-- The pair is there already. -/
  | known {id : TokenId} {spelling : Bytes} (hpair : request.pair? = some (id, spelling))
      (hfound : table.lookup? id = some spelling) : Outcome table request (.ok table)
  /-- The id has another spelling. -/
  | refused {id : TokenId} {spelling other : Bytes} (hpair : request.pair? = some (id, spelling))
      (hfound : table.lookup? id = some other) (hne : other ≠ spelling) :
      Outcome table request (.error (.hashCollision other spelling id))
  /-- The id has no spelling yet, and gets this one. -/
  | new {id : TokenId} {spelling : Bytes} {table' : SpellingTable}
      (hpair : request.pair? = some (id, spelling)) (hnone : table.lookup? id = none)
      (hsorted : table'.isSorted)
      (hlookup : ∀ other, table'.lookup? other = if other = id then some spelling
        else table.lookup? other) :
      Outcome table request (.ok table')

/-- **A request comes to one of these**, on a table in order. -/
theorem outcome_answer (ha : a.isSorted) (request : Request) :
    Outcome a request (a.answer request) := by
  rw [answer_eq]
  cases hpair : request.pair? with
  | none => exact .keyword hpair
  | some pair =>
    obtain ⟨id, spelling⟩ := pair
    simp only [Option.elim_some]
    cases hfind : a.find? id with
    | none =>
      have hnone : a.lookup? id = none := by simp [lookup?, hfind]
      have hinsert : ∃ b, a.insert id spelling = .ok b := by simp [insert, hfind]
      obtain ⟨b, hb⟩ := hinsert
      rw [hb]
      exact .new hpair hnone (isSorted_insert ha hb) (lookup?_insert ha hb)
    | some e =>
      have hfound : a.lookup? id = some e.spelling := by simp [lookup?, hfind]
      by_cases hsame : e.spelling = spelling
      · have hinsert : a.insert id spelling = .ok a := by simp [insert, hfind, hsame]
        rw [hinsert]
        exact .known hpair (hsame ▸ hfound)
      · have hinsert : a.insert id spelling = .error (.hashCollision e.spelling spelling id) := by
          simp [insert, hfind, hsame]
        rw [hinsert]
        exact .refused hpair hfound hsame

/-- A request is refused exactly if its id has another spelling. -/
theorem answer_eq_error_iff (ha : a.isSorted) (request : Request) (cause : Cause) :
    a.answer request = .error cause ↔ ∃ id spelling other, request.pair? = some (id, spelling) ∧
      a.lookup? id = some other ∧ other ≠ spelling ∧ cause = .hashCollision other spelling id := by
  constructor
  · intro h
    have hout := outcome_answer ha request
    rw [h] at hout
    rcases hout with - | - | ⟨hpair, hfound, hne⟩ | -
    exact ⟨_, _, _, hpair, hfound, hne, rfl⟩
  · rintro ⟨id, spelling, other, hpair, hfound, hne, rfl⟩
    obtain ⟨e, hfind, rfl⟩ := Option.map_eq_some_iff.mp hfound
    simp [answer_eq, hpair, insert, hfind, hne]

/-- A request for what is there changes nothing. -/
theorem answer_known {request : Request} (hpair : request.pair? = some (id, spelling))
    (hfound : a.lookup? id = some spelling) : a.answer request = .ok a := by
  obtain ⟨e, hfind, rfl⟩ := Option.map_eq_some_iff.mp hfound
  simp [answer_eq, hpair, insert, hfind]

/-- One request keeps the order and all spellings, and adds that of the pair which it accepts. -/
theorem ask_step (ha : a.isSorted) (request : Request) :
    (a.ask request).isSorted ∧ ∀ id, (a.ask request).lookup? id
      = (a.lookup? id).or ((a.accepted? request).toList.lookup id) := by
  have hout := outcome_answer ha request
  unfold ask accepted?
  generalize a.answer request = given at hout ⊢
  rcases hout with hpair | @⟨id, spelling, hpair, hfound⟩ | - |
    @⟨id, spelling, table, hpair, hnone, hsorted, hlookup⟩
  · simp [hpair, ha]
  · refine ⟨ha, fun other => ?_⟩
    by_cases heq : other = id
    · simp [heq, hfound]
    · simp [hpair, beq_false_of_ne heq, List.lookup_cons]
  · simp [ha]
  · refine ⟨hsorted, fun other => ?_⟩
    by_cases heq : other = id
    · simp [hpair, hlookup, heq, hnone]
    · simp [hpair, hlookup, heq, beq_false_of_ne heq, List.lookup_cons]

/-- What is accepted is in the table then. -/
theorem lookup?_of_accepted? (ha : a.isSorted) {request : Request}
    (h : a.accepted? request = some (id, spelling)) :
    (a.ask request).lookup? id = some spelling := by
  have hout := outcome_answer ha request
  unfold accepted? at h
  unfold ask
  generalize a.answer request = given at hout h ⊢
  rcases hout with hpair | ⟨hpair, hfound⟩ | - | ⟨hpair, -, -, hlookup⟩
  · simp [hpair] at h
  · simp only [hpair, Option.some.injEq, Prod.mk.injEq] at h
    obtain ⟨rfl, rfl⟩ := h
    exact hfound
  · cases h
  · simp only [hpair, Option.some.injEq, Prod.mk.injEq] at h
    obtain ⟨rfl, rfl⟩ := h
    simp [hlookup]

/-- **Requests keep the order, and for every id what it had first.** -/
theorem askAll_run (ha : a.isSorted) (requests : List Request) :
    (a.askAll requests).isSorted ∧ ∀ id, (a.askAll requests).lookup? id
      = (a.lookup? id).or ((a.accepted requests).lookup id) := by
  induction requests generalizing a with
  | nil => simpa [askAll, accepted] using ha
  | cons request requests ih =>
    obtain ⟨hsorted, hlookup⟩ := ask_step ha request
    obtain ⟨hsorted', hlookup'⟩ := ih hsorted
    refine ⟨hsorted', fun id => ?_⟩
    calc (a.askAll (request :: requests)).lookup? id
        = ((a.ask request).lookup? id).or (((a.ask request).accepted requests).lookup id) :=
          hlookup' id
      _ = (a.lookup? id).or ((a.accepted (request :: requests)).lookup id) := by
          rw [hlookup, accepted, List.lookup_append, Option.or_assoc]

/-- What is accepted at some time stays. -/
theorem lookup?_of_mem_accepted (ha : a.isSorted) {requests : List Request}
    (h : (id, spelling) ∈ a.accepted requests) :
    (a.askAll requests).lookup? id = some spelling := by
  induction requests generalizing a with
  | nil => cases h
  | cons request requests ih =>
    obtain ⟨hsorted, -⟩ := ask_step ha request
    rcases List.mem_append.mp h with hfirst | hlater
    · obtain ⟨-, hlookup⟩ := askAll_run hsorted requests
      have hnow := lookup?_of_accepted? ha (Option.mem_toList.mp hfirst)
      exact (hlookup id).trans (by simp [hnow])
    · exact ih hsorted hlater

/-- From nothing, the table has the accepted pairs and no others. -/
theorem lookup?_askAll_empty_iff (requests : List Request) :
    (empty.askAll requests).lookup? id = some spelling ↔
      (id, spelling) ∈ empty.accepted requests := by
  constructor
  · intro h
    obtain ⟨-, hlookup⟩ := askAll_run isSorted_empty requests
    rw [hlookup, lookup?_empty, Option.none_or] at h
    exact mem_of_lookup h
  · exact lookup?_of_mem_accepted isSorted_empty

/-- **Requests fill a finite map.**  Let some spellings be inserted or interned, from the empty
table on.  The table is in order; it spells an id as the first accepted pair with that id does, and
no others.  A further request is refused exactly if the table spells its id in another way, with
that collision as the cause, and leaves the table as it is; a request for a pair that is there
leaves it as it is, too.  Other requests of which the same pairs are accepted, in any order and
number, give the same table. -/
theorem requests_fill_map (requests : List Request) :
    (empty.askAll requests).isSorted ∧
    (∀ id, (empty.askAll requests).lookup? id = (empty.accepted requests).lookup id) ∧
    (∀ request cause, (empty.askAll requests).answer request = .error cause ↔
      ∃ id spelling other, request.pair? = some (id, spelling) ∧
        (empty.askAll requests).lookup? id = some other ∧ other ≠ spelling ∧
        cause = .hashCollision other spelling id) ∧
    (∀ request cause, (empty.askAll requests).answer request = .error cause →
      (empty.askAll requests).ask request = empty.askAll requests) ∧
    (∀ request id spelling, request.pair? = some (id, spelling) →
      (empty.askAll requests).lookup? id = some spelling →
      (empty.askAll requests).answer request = .ok (empty.askAll requests)) ∧
    ∀ requests', (∀ pair, pair ∈ empty.accepted requests' ↔ pair ∈ empty.accepted requests) →
      empty.askAll requests' = empty.askAll requests := by
  obtain ⟨hsorted, hlookup⟩ := askAll_run isSorted_empty requests
  refine ⟨hsorted, fun id => ?_, answer_eq_error_iff hsorted, ?_, ?_, ?_⟩
  · rw [hlookup, lookup?_empty, Option.none_or]
  · intro request cause hrefused
    simp [ask, hrefused]
  · intro request id spelling hpair hfound
    exact answer_known hpair hfound
  · intro requests' hsame
    refine eq_of_lookup? (askAll_run isSorted_empty requests').1 hsorted fun id =>
      Option.ext fun spelling => ?_
    rw [lookup?_askAll_empty_iff, lookup?_askAll_empty_iff]
    exact hsame (id, spelling)

/-- A pair, a word, and a spelling that comes too late; then the two in the other order, and one of
them twice. -/
theorem requests_fill_map_collision :
    let requests : List Request := [.insert 7 [0x61], .intern [0x62], .insert 7 [0x63]]
    let requests' : List Request := [.intern [0x62], .insert 7 [0x61], .insert 7 [0x61]]
    let table : SpellingTable := ⟨[⟨7, [0x61]⟩, ⟨1908338681, [0x62]⟩]⟩
    empty.askAll requests = table ∧ table.lookup? 7 = some [0x61] ∧
      table.answer (.insert 7 [0x63]) = .error (.hashCollision [0x61] [0x63] 7) ∧
      table.ask (.insert 7 [0x63]) = table ∧ table.answer (.intern [0x62]) = .ok table ∧
      empty.askAll requests' = table := by
  intro requests requests' table
  have hplain : Vocabulary.find? [0x62] = none := by cbv
  have hhash : TokenId.hash [0x62] = 1908338681 := by cbv
  have hword : (Request.intern [0x62]).pair? = some (1908338681, [0x62]) := by
    simp [Request.pair?, hplain, hhash]
  have hpair : empty.answer (.insert 7 [0x61]) = .ok ⟨[⟨7, [0x61]⟩]⟩ := by cbv
  have hthen : answer ⟨[⟨7, [0x61]⟩]⟩ (.intern [0x62]) = .ok table := by
    rw [answer_eq, hword]
    cbv
  have hlate : table.answer (.insert 7 [0x63]) = .error (.hashCollision [0x61] [0x63] 7) := by cbv
  have hfirst : empty.answer (.intern [0x62]) = .ok ⟨[⟨1908338681, [0x62]⟩]⟩ := by
    rw [answer_eq, hword]
    cbv
  have hbefore : answer ⟨[⟨1908338681, [0x62]⟩]⟩ (.insert 7 [0x61]) = .ok table := by cbv
  have htwice : table.answer (.insert 7 [0x61]) = .ok table := by cbv
  have htable : empty.askAll requests = table := by
    simp [askAll, requests, ask, hpair, hthen, hlate]
  have hpairs : empty.accepted requests = [(7, [0x61]), (1908338681, [0x62])] := by
    simp [accepted, requests, accepted?, ask, hpair, hthen, hlate, hplain, hhash, Request.pair?]
  have hpairs' : empty.accepted requests' = [(1908338681, [0x62]), (7, [0x61]), (7, [0x61])] := by
    simp [accepted, requests', accepted?, ask, hfirst, hbefore, htwice, hplain, hhash,
      Request.pair?]
  obtain ⟨-, hlookup, hrefused, hkept, hknown, hsame⟩ := requests_fill_map requests
  rw [htable] at hlookup hrefused hkept hknown hsame
  rw [hpairs] at hlookup hsame
  have hcollision := (hrefused (.insert 7 [0x63]) _).mpr
    ⟨7, [0x63], [0x61], rfl, hlookup 7, by decide, rfl⟩
  refine ⟨htable, hlookup 7, hcollision, hkept _ _ hcollision,
    hknown _ _ _ hword (hlookup _), hsame _ ?_⟩
  intro pair
  rw [hpairs']
  simp only [List.mem_cons, List.not_mem_nil, or_false, or_self]
  exact or_comm

/-! ## 3. Unions -/

/-- The tables spell no id in two ways. -/
def Consistent (a b : SpellingTable) : Prop :=
  ∀ id spelling spelling', a.lookup? id = some spelling → b.lookup? id = some spelling' →
    spelling = spelling'

theorem Consistent.symm (h : a.Consistent b) : b.Consistent a :=
  fun id spelling spelling' hb ha => (h id spelling' spelling ha hb).symm

instance : Std.Symm Consistent := ⟨fun _ _ => Consistent.symm⟩

theorem Consistent.refl (a : SpellingTable) : a.Consistent a := by
  intro id spelling spelling' h h'
  exact Option.some.inj (h.symm.trans h')

theorem merge_assoc (ha : a.isSorted) (hb : b.isSorted) (hc : c.isSorted) :
    (a.merge b).merge c = a.merge (b.merge c) := by
  have hab := isSorted_merge ha hb
  have hbc := isSorted_merge hb hc
  refine eq_of_lookup? (isSorted_merge hab hc) (isSorted_merge ha hbc) fun id => ?_
  rw [lookup?_merge hab hc, lookup?_merge ha hb, lookup?_merge ha hbc, lookup?_merge hb hc,
    Option.or_assoc]

theorem merge_self (ha : a.isSorted) : a.merge a = a := by
  refine eq_of_lookup? (isSorted_merge ha ha) ha fun id => ?_
  rw [lookup?_merge ha ha, Option.or_self]

theorem merge_empty (ha : a.isSorted) : a.merge empty = a := by
  refine eq_of_lookup? (isSorted_merge ha isSorted_empty) ha fun id => ?_
  rw [lookup?_merge ha isSorted_empty, lookup?_empty, Option.none_or]

theorem empty_merge (ha : a.isSorted) : empty.merge a = a := by
  refine eq_of_lookup? (isSorted_merge isSorted_empty ha) ha fun id => ?_
  rw [lookup?_merge isSorted_empty ha, lookup?_empty, Option.or_none]

/-- **The order of two tables matters exactly if they contradict each other.** -/
theorem merge_comm_iff (ha : a.isSorted) (hb : b.isSorted) :
    a.merge b = b.merge a ↔ a.Consistent b := by
  constructor
  · intro h id spelling spelling' hspelling hspelling'
    have hboth := congrArg (lookup? · id) h
    simpa [lookup?_merge ha hb, lookup?_merge hb ha, hspelling, hspelling', eq_comm] using hboth
  · intro h
    refine eq_of_lookup? (isSorted_merge ha hb) (isSorted_merge hb ha) fun id => ?_
    rw [lookup?_merge ha hb, lookup?_merge hb ha]
    cases hspelling : a.lookup? id with
    | none => simp
    | some spelling =>
      cases hspelling' : b.lookup? id with
      | none => simp
      | some spelling' => simp [h id spelling spelling' hspelling hspelling']

/-- The union of some tables, the later ones with precedence. -/
def mergeAll (tables : List SpellingTable) : SpellingTable := tables.foldl merge empty

theorem sums_mergeAll {tables : List SpellingTable} (h : ∀ table ∈ tables, table.isSorted) :
    Sums tables (mergeAll tables) := by
  induction tables using List.reverseRecOn with
  | nil => exact ⟨isSorted_empty, by simp [mergeAll]⟩
  | append_singleton tables table ih =>
    obtain ⟨hbefore, hlast⟩ := List.forall_mem_append.mp h
    rw [mergeAll, List.foldl_append]
    exact (ih hbefore).merge (.one (hlast table List.mem_cons_self))

/-- Tables that agree are united to one that spells what any of them spells. -/
theorem lookup?_mergeAll_iff {tables : List SpellingTable} (h : ∀ table ∈ tables, table.isSorted)
    (hconsistent : tables.Pairwise Consistent) :
    (mergeAll tables).lookup? id = some spelling ↔
      ∃ table ∈ tables, table.lookup? id = some spelling := by
  have hsums := sums_mergeAll h
  have hall : ∀ one ∈ tables, ∀ other ∈ tables, one.Consistent other := fun one hone other hother =>
    List.Pairwise.forall_of_forall (fun table _ => Consistent.refl table) hconsistent hone hother
  constructor
  · intro hspelled
    rw [hsums.lookup?_eq] at hspelled
    obtain ⟨table, htable, hfound⟩ := List.exists_of_findSome?_eq_some hspelled
    exact ⟨table, List.mem_reverse.mp htable, hfound⟩
  · rintro ⟨table, htable, hfound⟩
    exact hsums.kept_iff.mpr hall table htable id spelling hfound

/-- **Tables that agree are united to the same table in any order.** -/
theorem mergeAll_perm {tables tables' : List SpellingTable} (hperm : tables.Perm tables')
    (h : ∀ table ∈ tables, table.isSorted) (hconsistent : tables.Pairwise Consistent) :
    mergeAll tables = mergeAll tables' := by
  have h' : ∀ table ∈ tables', table.isSorted :=
    fun table htable => h table (hperm.mem_iff.mpr htable)
  have hconsistent' : tables'.Pairwise Consistent := hperm.pairwise hconsistent fun h => h.symm
  refine eq_of_lookup? (sums_mergeAll h).isSorted (sums_mergeAll h').isSorted fun id =>
    Option.ext fun spelling => ?_
  rw [lookup?_mergeAll_iff h hconsistent, lookup?_mergeAll_iff h' hconsistent']
  simp only [hperm.mem_iff]

end SpellingTable

theorem Library.spellings_eq (lib : Library) :
    lib.spellings = SpellingTable.mergeAll (lib.bins.map (·.2.table)) := by
  rw [SpellingTable.mergeAll, List.foldl_map]
  rfl

/-- **Merging is the union with precedence of the second table.**  For tables in order, the merge
is in order and spells an id as the second table does, or else as the first does, or else not at
all.  Merging is associative and idempotent, the empty table is neutral, and two tables give the
same in both orders exactly if they spell no id in two ways.  So tables of which no two contradict
each other are merged to the same table in any order.

The spellings of a library are the tables of its bins, merged one after the other.  Where no two of
them contradict each other, they are what any bin spells, in whatever order the library holds its
bins. -/
theorem merge_unites :
    (∀ a b : SpellingTable, a.isSorted → b.isSorted →
      (a.merge b).isSorted ∧ (∀ id, (a.merge b).lookup? id = (b.lookup? id).or (a.lookup? id)) ∧
      (a.merge b = b.merge a ↔ a.Consistent b)) ∧
    (∀ a b c : SpellingTable, a.isSorted → b.isSorted → c.isSorted →
      (a.merge b).merge c = a.merge (b.merge c)) ∧
    (∀ a : SpellingTable, a.isSorted →
      a.merge a = a ∧ a.merge .empty = a ∧ SpellingTable.empty.merge a = a) ∧
    (∀ tables tables' : List SpellingTable, tables.Perm tables' →
      (∀ table ∈ tables, table.isSorted) → tables.Pairwise SpellingTable.Consistent →
        tables.foldl SpellingTable.merge .empty = tables'.foldl SpellingTable.merge .empty) ∧
    (∀ lib : Library,
      lib.spellings = (lib.bins.map (·.2.table)).foldl SpellingTable.merge .empty) ∧
    ∀ lib : Library, (∀ entry ∈ lib.bins, entry.2.table.isSorted) →
      (lib.bins.Pairwise fun entry entry' => entry.2.table.Consistent entry'.2.table) →
      (∀ id spelling, lib.spellings.lookup? id = some spelling ↔
        ∃ entry ∈ lib.bins, entry.2.table.lookup? id = some spelling) ∧
      ∀ lib' : Library, lib.bins.Perm lib'.bins → lib.spellings = lib'.spellings := by
  refine ⟨?_, fun a b c => SpellingTable.merge_assoc, ?_,
    fun tables tables' => SpellingTable.mergeAll_perm, Library.spellings_eq, ?_⟩
  · intro a b ha hb
    exact ⟨SpellingTable.isSorted_merge ha hb, SpellingTable.lookup?_merge ha hb,
      SpellingTable.merge_comm_iff ha hb⟩
  · intro a ha
    exact ⟨SpellingTable.merge_self ha, SpellingTable.merge_empty ha,
      SpellingTable.empty_merge ha⟩
  · intro lib hsorted hconsistent
    have htables : ∀ table ∈ lib.bins.map (·.2.table), table.isSorted :=
      List.forall_mem_map.mpr hsorted
    have hagree : (lib.bins.map (·.2.table)).Pairwise SpellingTable.Consistent :=
      List.pairwise_map.mpr hconsistent
    refine ⟨fun id spelling => ?_, fun lib' hperm => ?_⟩
    · rw [lib.spellings_eq, SpellingTable.lookup?_mergeAll_iff htables hagree]
      simp only [List.mem_map, exists_exists_and_eq_and]
    · rw [lib.spellings_eq, lib'.spellings_eq]
      exact SpellingTable.mergeAll_perm (hperm.map _) htables hagree

/-- Two tables that contradict each other, three that do not and meet in all three orders of two,
and a library that holds two bins, with what it spells from either of them, and the other way
round. -/
theorem merge_unites_contradiction :
    let a : SpellingTable := ⟨[⟨7, [0x61]⟩, ⟨9, [0x62]⟩]⟩
    let b : SpellingTable := ⟨[⟨5, []⟩, ⟨9, [0x63]⟩]⟩
    let c : SpellingTable := ⟨[⟨8, [0x64]⟩, ⟨9, [0x62]⟩]⟩
    let bin (table : SpellingTable) : Bin := ⟨[], 0, 0, table, []⟩
    let lib (bins : List (Bytes × Bin)) : Library := ⟨[], [], .little, bins, ⟨[], []⟩⟩
    (a.merge b).lookup? 9 = some [0x63] ∧ a.merge b ≠ b.merge a ∧
      (a.merge b).merge c = a.merge (b.merge c) ∧ a.merge a = a ∧
      [a, c, .empty].foldl SpellingTable.merge .empty
        = [.empty, c, a].foldl SpellingTable.merge .empty ∧
      (lib [([0x78], bin a), ([0x79], bin c)]).spellings
        = ⟨[⟨7, [0x61]⟩, ⟨8, [0x64]⟩, ⟨9, [0x62]⟩]⟩ ∧
      (lib [([0x78], bin a), ([0x79], bin c)]).spellings.lookup? 7 = some [0x61] ∧
      (lib [([0x78], bin a), ([0x79], bin c)]).spellings.lookup? 8 = some [0x64] ∧
      (lib [([0x78], bin a), ([0x79], bin c)]).spellings
        = (lib [([0x79], bin c), ([0x78], bin a)]).spellings := by
  intro a b c bin lib
  obtain ⟨hunion, hassoc, hself, hperm, hfold, hlib⟩ := merge_unites
  have ha : a.isSorted := by decide
  have hb : b.isSorted := by decide
  have hc : c.isSorted := by decide
  have hspelled : a.lookup? 9 = some [0x62] ∧ b.lookup? 9 = some [0x63] := ⟨by cbv, by cbv⟩
  obtain ⟨-, hlookup, hcomm⟩ := hunion a b ha hb
  have hac : a.Consistent c := by
    intro id spelling spelling' hspelling hspelling'
    rw [SpellingTable.lookup?_eq_some_iff ha] at hspelling
    rw [SpellingTable.lookup?_eq_some_iff hc] at hspelling'
    simp only [a, c, List.mem_cons, SpellingEntry.mk.injEq, List.not_mem_nil, or_false]
      at hspelling hspelling'
    rcases hspelling with ⟨rfl, rfl⟩ | ⟨rfl, rfl⟩
    · simp at hspelling'
    · simpa [eq_comm] using hspelling'
  have hempty : ∀ table : SpellingTable, table.Consistent .empty := by
    intro table id spelling spelling' _ h
    simp at h
  obtain ⟨hspells, horder⟩ := hlib (lib [([0x78], bin a), ([0x79], bin c)])
    (by simp [lib, bin, ha, hc]) (by simp [lib, bin, hac])
  refine ⟨by simp [hlookup, hspelled], ?_, hassoc a b c ha hb hc, (hself a ha).1,
    hperm _ _ (List.reverse_perm [a, c, .empty]).symm (by simp [ha, hc]) (by simp [hac, hempty]),
    ?_, ?_, ?_, horder (lib _) (List.Perm.swap _ _ [])⟩
  · rw [Ne, hcomm]
    intro h
    exact absurd (h 9 _ _ hspelled.1 hspelled.2) (by decide)
  · rw [hfold]
    cbv
  · exact (hspells 7 [0x61]).mpr ⟨([0x78], bin a), List.mem_cons_self, by cbv⟩
  · exact (hspells 8 [0x64]).mpr ⟨([0x79], bin c), by simp [lib], by cbv⟩

end EffectScript
