/-
A report comes back from its text.

The compact form has the fields in order, and in the pretty form the keys of every object are
sorted.  Both are read back as JSON values that are the same but for the order of members,
and the reader of reports looks only at keys: it finds a field wherever it stands, passes over
those it does not know, and takes two of them for empty if they are left out.  So the proof
comes down to one lemma about a lookup among members that are given in any order and mixed
with others, which is used for the verdict and for the report around it.
-/
import EvmSafety.Proofs.Rereading
import EvmSafety.Report.Reading

namespace EvmSafety

namespace Json

/-! ### The order of members -/

/-- Values that are the same but for the order of members: lists item by item, and objects if
they have the same keys and the same value under each of them. -/
inductive Same : Json → Json → Prop
  | refl (value : Json) : Same value value
  | array {items others : List Json} (hlength : items.length = others.length)
    (h : ∀ i (hi : i < items.length) (hj : i < others.length), Same items[i] others[i]) :
    Same (array items) (array others)
  | object {members others : List (String × Json)}
    (hkeys : (members.map (·.1)).Perm (others.map (·.1)))
    (h : ∀ member ∈ members, ∀ other ∈ others, member.1 = other.1 → Same member.2 other.2) :
    Same (object members) (object others)

theorem sortedItems_eq_map (items : List Json) : sortedItems items = items.map sorted := by
  induction items with
  | nil => rfl
  | cons item items ih => rw [sortedItems, ih, List.map_cons]

theorem insertMember_perm (member : String × Json) (members : List (String × Json)) :
    (insertMember member members).Perm (member :: members) := by
  induction members with
  | nil => exact .refl _
  | cons other members ih =>
    by_cases hlt : member.1 < other.1
    · rw [insertMember, if_pos hlt]
    · rw [insertMember, if_neg hlt]
      exact (ih.cons other).trans (.swap member other members)

theorem sortedMembers_perm (members : List (String × Json)) :
    (sortedMembers members).Perm (members.map fun member => (member.1, member.2.sorted)) := by
  induction members with
  | nil => exact .refl _
  | cons member members ih =>
    rw [sortedMembers, List.map_cons]
    exact (insertMember_perm _ _).trans (ih.cons _)

theorem keys_sortedMembers_perm (members : List (String × Json)) :
    ((sortedMembers members).map (·.1)).Perm (members.map (·.1)) := by
  have hperm := (sortedMembers_perm members).map (·.1)
  rwa [List.map_map] at hperm

theorem exists_of_mem_sortedMembers {members : List (String × Json)} {member : String × Json}
    (h : member ∈ sortedMembers members) :
    ∃ other ∈ members, member = (other.1, other.2.sorted) := by
  obtain ⟨other, hother, heq⟩ := List.mem_map.1 ((sortedMembers_perm members).mem_iff.1 h)
  exact ⟨other, hother, heq.symm⟩

theorem Readable.sorted {value : Json} (h : value.Readable) : value.sorted.Readable := by
  induction h with
  | null => exact .null
  | bool b => exact .bool b
  | number n => exact .number n
  | decimal h => exact .decimal h
  | string text => exact .string text
  | @array items _ ih =>
    rw [Json.sorted, sortedItems_eq_map]
    refine .array ?_
    intro item hitem
    obtain ⟨other, hother, rfl⟩ := List.mem_map.1 hitem
    exact ih other hother
  | @object members hkeys _ ih =>
    rw [Json.sorted]
    refine .object ((keys_sortedMembers_perm members).nodup_iff.2 hkeys) ?_
    intro member hmember
    obtain ⟨other, hother, rfl⟩ := exists_of_mem_sortedMembers hmember
    exact ih other hother

/-- Sorting changes nothing but the order of members. -/
theorem same_sorted {value : Json} (h : value.Readable) : value.Same value.sorted := by
  induction h with
  | null => exact .refl _
  | bool b => exact .refl _
  | number n => exact .refl _
  | decimal h => exact .refl _
  | string text => exact .refl _
  | @array items _ ih =>
    rw [sorted, sortedItems_eq_map]
    refine .array (List.length_map _).symm ?_
    intro i hi hj
    rw [List.getElem_map]
    exact ih _ (List.getElem_mem hi)
  | @object members hkeys _ ih =>
    rw [sorted]
    refine .object (keys_sortedMembers_perm members).symm ?_
    intro member hmember other hother heq
    obtain ⟨source, hsource, rfl⟩ := exists_of_mem_sortedMembers hother
    -- Keys occur once, so that the other member stems from this one.
    obtain rfl := List.inj_on_of_nodup_map hkeys hmember hsource heq
    exact ih member hmember

/-! ### Fields among other members -/

/-- An object with these fields but those left out, in any order, and with members of other
names among them. -/
def Shows (fields : List (String × Json)) (omitted : List String) (value : Json) : Prop :=
  ∃ members more, value = object members ∧
    members.Perm ((fields.filter fun field => field.1 ∉ omitted) ++ more) ∧
    ∀ member ∈ more, member.1 ∉ fields.map (·.1)

theorem shows_filter (fields : List (String × Json)) (omitted : List String) :
    Shows fields omitted (object (fields.filter fun field => field.1 ∉ omitted)) := by
  refine ⟨_, [], rfl, ?_, by simp⟩
  rw [List.append_nil]

theorem shows_fields (fields : List (String × Json)) : Shows fields [] (object fields) := by
  have hshows := shows_filter fields []
  simpa using hshows

/-- A member of another name does not matter. -/
theorem Shows.cons {fields members : List (String × Json)} {omitted : List String}
    {member : String × Json} (h : Shows fields omitted (object members))
    (hnew : member.1 ∉ fields.map (·.1)) : Shows fields omitted (object (member :: members)) := by
  obtain ⟨_, more, heq, hperm, hmore⟩ := h
  obtain rfl := object.inj heq
  refine ⟨_, member :: more, rfl, (hperm.cons member).trans List.perm_middle.symm, ?_⟩
  intro other hother
  rcases List.mem_cons.1 hother with rfl | hother
  · exact hnew
  · exact hmore other hother

theorem shows_sorted_fields (fields : List (String × Json)) :
    Shows (fields.map fun field => (field.1, field.2.sorted)) [] (object fields).sorted := by
  refine ⟨sortedMembers fields, [], sorted.eq_def _, ?_, by simp⟩
  simpa using sortedMembers_perm fields

theorem field?_eq_some {members : List (String × Json)} {key : String} {value : Json}
    (h : (key, value) ∈ members) (hunique : ∀ other, (key, other) ∈ members → other = value) :
    (object members).field? key = some value := by
  cases hfind : members.find? fun member => member.1 = key with
  | none =>
    have hnone := List.find?_eq_none.1 hfind (key, value) h
    simp at hnone
  | some member =>
    obtain rfl : member.1 = key := by simpa using List.find?_some hfind
    rw [field?, hfind, Option.map_some, hunique member.2 (List.mem_of_find?_eq_some hfind)]

theorem field?_eq_none {members : List (String × Json)} {key : String}
    (h : ∀ value, (key, value) ∉ members) : (object members).field? key = none := by
  have hfind : (members.find? fun member => member.1 = key) = none := by
    refine List.find?_eq_none.2 ?_
    rintro ⟨other, value⟩ hother heq
    obtain rfl : other = key := of_decide_eq_true heq
    exact h value hother
  rw [field?, hfind, Option.map_none]

/-- **A field is found wherever it stands,** and is missed only if it was left out. -/
theorem required?_of_shows {fields : List (String × Json)} {omitted : List String} {value : Json}
    (h : Shows fields omitted value) (hkeys : (fields.map (·.1)).Nodup) {key : String}
    {field : Json} (hfield : (key, field) ∈ fields) (place : Nat) :
    value.required? key place = if key ∈ omitted then none else some field := by
  obtain ⟨members, more, rfl, hperm, hmore⟩ := h
  have hkey : key ∈ fields.map (·.1) := List.mem_map_of_mem hfield
  have hmem (other : Json) :
      (key, other) ∈ members ↔ (key, other) ∈ fields ∧ key ∉ omitted := by
    rw [hperm.mem_iff, List.mem_append, List.mem_filter, decide_eq_true_eq]
    refine ⟨fun h => h.resolve_right ?_, .inl⟩
    intro hother
    exact hmore _ hother hkey
  by_cases homitted : key ∈ omitted
  · rw [if_pos homitted]
    refine field?_eq_none ?_
    intro other hother
    exact ((hmem other).1 hother).2 homitted
  · rw [if_neg homitted]
    refine field?_eq_some ((hmem field).2 ⟨hfield, homitted⟩) ?_
    intro other hother
    have heq := List.inj_on_of_nodup_map hkeys ((hmem other).1 hother).1 hfield rfl
    exact (Prod.mk.inj heq).2

/-! ### Counts -/

theorem toCount?_ofNat {n : Nat} (h : n < Decimal.countLimit) : (ofNat n).toCount? = some n :=
  if_pos h

theorem toCounts?_map_ofNat {counts : List Nat} (h : ∀ n ∈ counts, n < Decimal.countLimit) :
    (array (counts.map ofNat)).toCounts? = some counts := by
  rw [toCounts?]
  induction counts with
  | nil => rfl
  | cons n counts ih =>
    have hrest := ih fun m hm => h m (List.mem_cons_of_mem _ hm)
    rw [List.map_cons, List.mapM_cons, toCount?_ofNat (h n List.mem_cons_self), hrest]
    rfl

end Json

/-! ### Names -/

theorem Fork.ofJson?_name (fork : Fork) : Fork.ofJson? (.string fork.name) = some fork := by
  cases fork
  all_goals rfl

theorem Violation.Kind.ofKey?_key (kind : Violation.Kind) :
    Violation.Kind.ofKey? kind.key = some kind := by
  cases kind
  all_goals rfl

/-! ### Verdicts -/

namespace Verdict

/-- The fields of a verdict with their names. -/
def fields : Verdict → List (String × Json)
  | valid depth => [("status", .string "valid"), ("max_stack_depth", .ofNat depth)]
  | invalid violation =>
    [("status", .string "invalid"), ("offset", .ofNat violation.offset),
      ("kind", .string violation.kind.key)]

theorem toJson_eq_fields (verdict : Verdict) : verdict.toJson = .object verdict.fields := by
  cases verdict with
  | valid depth => rfl
  | invalid violation => rfl

theorem nodup_fields (verdict : Verdict) : (verdict.fields.map (·.1)).Nodup := by
  cases verdict with
  | valid depth =>
    have hkeys : (valid depth).fields.map (·.1) = ["status", "max_stack_depth"] := rfl
    rw [hkeys]
    decide
  | invalid violation =>
    have hkeys : (invalid violation).fields.map (·.1) = ["status", "offset", "kind"] := rfl
    rw [hkeys]
    decide

theorem shows_toJson (verdict : Verdict) : Json.Shows verdict.fields [] verdict.toJson := by
  rw [toJson_eq_fields]
  exact Json.shows_fields _

theorem shows_sorted_toJson (verdict : Verdict) :
    Json.Shows verdict.fields [] verdict.toJson.sorted := by
  have hsorted : (verdict.fields.map fun field => (field.1, field.2.sorted)) = verdict.fields := by
    cases verdict with
    | valid depth => rfl
    | invalid violation => rfl
  have hshows := Json.shows_sorted_fields verdict.fields
  rwa [hsorted, ← toJson_eq_fields] at hshows

theorem readable_fields (verdict : Verdict) :
    ∀ field ∈ verdict.fields, field.2.Readable := by
  cases verdict with
  | valid depth =>
    intro field hfield
    simp only [fields, List.mem_cons, List.not_mem_nil, or_false] at hfield
    rcases hfield with rfl | rfl
    · exact .string _
    · exact .number _
  | invalid violation =>
    intro field hfield
    simp only [fields, List.mem_cons, List.not_mem_nil, or_false] at hfield
    rcases hfield with rfl | rfl | rfl
    · exact .string _
    · exact .number _
    · exact .string _

/-- The number in a verdict fits in 64 bits. -/
def Fits : Verdict → Prop
  | valid depth => depth < Decimal.countLimit
  | invalid violation => violation.offset < Decimal.countLimit

theorem ofJson?_of_shows {verdict : Verdict} {value : Json} (hfits : verdict.Fits)
    (h : Json.Shows verdict.fields [] value) : ofJson? value = some verdict := by
  have hbody : body? value = some value := by
    obtain ⟨members, more, rfl, -⟩ := h
    rfl
  have hhas (count : Nat) : value.hasFields count = true := by
    obtain ⟨members, more, rfl, -⟩ := h
    rfl
  have hfield {key : String} {field : Json} (hmem : (key, field) ∈ verdict.fields) (place : Nat) :
      value.required? key place = some field :=
    Json.required?_of_shows h (nodup_fields verdict) hmem place
  cases verdict with
  | valid depth =>
    have hstatus := @hfield "status" (.string "valid") (by simp [fields]) 0
    have hdepth := @hfield "max_stack_depth" (.ofNat depth) (by simp [fields]) 0
    simp [ofJson?, hstatus, hbody, hhas, hdepth, Json.toText?, Json.toCount?_ofNat hfits]
  | invalid violation =>
    have hstatus := @hfield "status" (.string "invalid") (by simp [fields]) 0
    have hoffset := @hfield "offset" (.ofNat violation.offset) (by simp [fields]) 0
    have hkind := @hfield "kind" (.string violation.kind.key) (by simp [fields]) 1
    simp [ofJson?, hstatus, hbody, hhas, hoffset, hkind, Json.toText?,
      Json.toCount?_ofNat hfits, Json.innerName?, Json.nameWith?, Violation.Kind.ofKey?_key]

end Verdict

/-! ### Reports -/

namespace Report

/-- The fields of a report with their names, around a verdict. -/
def fields (report : Report) (verdict : Json) : List (String × Json) :=
  [("fork", .string report.fork.name), ("code_size", .ofNat report.codeSize),
    ("verdict", verdict), ("block_entries", .array (report.blockEntries.map .ofNat)),
    ("routines", .ofNat report.routines)]

/-- The fields that may be left out. -/
def mayOmit : List String :=
  ["block_entries", "routines"]

/-- The report with nothing in the place of what is left out. -/
def without (report : Report) (omitted : List String) : Report :=
  { report with
    blockEntries := if "block_entries" ∈ omitted then [] else report.blockEntries
    routines := if "routines" ∈ omitted then 0 else report.routines }

/-- An object with the fields of a report but those left out, in any order, and with members of
other names among them and among those of its verdict. -/
def Shows (report : Report) (omitted : List String) (value : Json) : Prop :=
  ∃ verdict, Json.Shows report.verdict.fields [] verdict ∧
    Json.Shows (report.fields verdict) omitted value

/-- The numbers in a report fit in 64 bits. -/
structure Fits (report : Report) : Prop where
  codeSize : report.codeSize < Decimal.countLimit
  verdict : report.verdict.Fits
  blockEntries : ∀ offset ∈ report.blockEntries, offset < Decimal.countLimit
  routines : report.routines < Decimal.countLimit

theorem nodup_fields (report : Report) (verdict : Json) :
    ((report.fields verdict).map (·.1)).Nodup := by
  have hkeys : (report.fields verdict).map (·.1)
      = ["fork", "code_size", "verdict", "block_entries", "routines"] := rfl
  rw [hkeys]
  decide

theorem record_eq_fields (report : Report) :
    report.record = .object (report.fields report.verdict.toJson) := rfl

/-- **The two encodings agree:** the object that is put together is the record, sorted. -/
theorem toJson_eq_sorted (report : Report) : report.toJson = report.record.sorted := rfl

theorem shows_record (report : Report) : report.Shows [] report.record := by
  exact ⟨report.verdict.toJson, Verdict.shows_toJson _, Json.shows_fields _⟩

theorem shows_toJson (report : Report) : report.Shows [] report.toJson := by
  refine ⟨report.verdict.toJson.sorted, Verdict.shows_sorted_toJson _, ?_⟩
  have hsorted : ((report.fields report.verdict.toJson).map fun field =>
      (field.1, field.2.sorted)) = report.fields report.verdict.toJson.sorted := by
    have hitems : (report.blockEntries.map Json.ofNat).map Json.sorted
        = report.blockEntries.map Json.ofNat := by
      rw [List.map_map]
      rfl
    simp [fields, Json.sorted, Json.ofNat, Json.sortedItems_eq_map, hitems]
  have hshows := Json.shows_sorted_fields (report.fields report.verdict.toJson)
  rwa [hsorted, ← record_eq_fields, ← toJson_eq_sorted] at hshows

theorem readable_fields (report : Report) {verdict : Json} (h : verdict.Readable) :
    ∀ field ∈ report.fields verdict, field.2.Readable := by
  intro field hfield
  simp only [fields, List.mem_cons, List.not_mem_nil, or_false] at hfield
  rcases hfield with rfl | rfl | rfl | rfl | rfl
  · exact .string _
  · exact .number _
  · exact h
  · refine .array ?_
    intro item hitem
    obtain ⟨offset, -, rfl⟩ := List.mem_map.1 hitem
    exact .number _
  · exact .number _

theorem readable_record (report : Report) : report.record.Readable := by
  refine .object (nodup_fields report report.verdict.toJson) (readable_fields report ?_)
  rw [Verdict.toJson_eq_fields]
  exact .object (Verdict.nodup_fields _) (Verdict.readable_fields _)

/-- The reader finds the report in any object that shows it. -/
theorem ofJson?_of_shows {report : Report} {omitted : List String} {value : Json}
    (hfits : report.Fits) (homitted : ∀ key ∈ omitted, key ∈ mayOmit)
    (h : report.Shows omitted value) : ofJson? value = some (report.without omitted) := by
  obtain ⟨verdict, hverdict, h⟩ := h
  have hhas : value.hasFields 5 = true := by
    obtain ⟨members, more, rfl, -⟩ := h
    rfl
  have hfield {key : String} {field : Json} (hmem : (key, field) ∈ report.fields verdict)
      (place : Nat) : value.required? key place = if key ∈ omitted then none else some field :=
    Json.required?_of_shows h (nodup_fields report verdict) hmem place
  have hneeded {key : String} {field : Json} (hmem : (key, field) ∈ report.fields verdict)
      (hkey : key ∉ mayOmit) (place : Nat) : value.required? key place = some field := by
    rw [hfield hmem, if_neg fun h => hkey (homitted key h)]
  have hfork := @hneeded "fork" (.string report.fork.name) (by simp [fields]) (by decide) 0
  have hsize := @hneeded "code_size" (.ofNat report.codeSize) (by simp [fields]) (by decide) 1
  have hinner := @hneeded "verdict" verdict (by simp [fields]) (by decide) 2
  have hblocks : value.optional? "block_entries" 3 [] Json.toCounts?
      = some (report.without omitted).blockEntries := by
    rw [Json.optional?, @hfield "block_entries" (.array (report.blockEntries.map .ofNat))
      (by simp [fields]) 3, without]
    by_cases hleft : "block_entries" ∈ omitted
    · simp [hleft]
    · simp [hleft, Json.toCounts?_map_ofNat hfits.blockEntries]
  have hroutines : value.optional? "routines" 4 0 Json.toCount?
      = some (report.without omitted).routines := by
    rw [Json.optional?, @hfield "routines" (.ofNat report.routines) (by simp [fields]) 4, without]
    by_cases hleft : "routines" ∈ omitted
    · simp [hleft]
    · simp [hleft, Json.toCount?_ofNat hfits.routines]
  simp [ofJson?, hhas, hfork, hsize, hinner, hblocks, hroutines, Fork.ofJson?_name,
    Json.toCount?_ofNat hfits.codeSize, Verdict.ofJson?_of_shows hfits.verdict hverdict, without]

/-- What comes back of a report that was written. -/
structure ComesBack (report : Report) : Prop where
  /-- The compact form is read as the report. -/
  compact : parse report.compact = some report
  /-- So is the pretty form. -/
  pretty : parse report.pretty = some report
  /-- The two forms are the same value but for the order of members. -/
  same : ∃ value other, Json.parse report.compact = some value ∧
    Json.parse report.pretty = some other ∧ value.Same other
  /-- Unknown members beside the fields change nothing, and what is left out is empty. -/
  shown : ∀ omitted value, (∀ key ∈ omitted, key ∈ mayOmit) → report.Shows omitted value →
    ∀ text, Json.parse text = some value → parse text = some (report.without omitted)
  /-- This goes for both written forms of an object with such members. -/
  written : ∀ omitted value, (∀ key ∈ omitted, key ∈ mayOmit) → report.Shows omitted value →
    value.Readable → parse value.compact = some (report.without omitted) ∧
      parse value.pretty = some (report.without omitted)

/-- **A report whose numbers fit in 64 bits comes back** from each of its forms, and whatever
unknown members are added to it or to its verdict. -/
theorem comesBack {report : Report} (h : report.Fits) : report.ComesBack := by
  have hreadable := readable_record report
  have hshown {omitted : List String} {value : Json} (homitted : ∀ key ∈ omitted, key ∈ mayOmit)
      (hshows : report.Shows omitted value) {text : String}
      (htext : Json.parse text = some value) : parse text = some (report.without omitted) := by
    rw [parse, htext]
    exact ofJson?_of_shows h homitted hshows
  have hcompact : Json.parse report.compact = some report.record :=
    Json.parse_compact hreadable
  have hpretty : Json.parse report.pretty = some report.toJson :=
    Json.parse_pretty (toJson_eq_sorted report ▸ hreadable.sorted)
  refine ⟨?_, ?_, ?_, ?_, ?_⟩
  · exact hshown (by simp) (shows_record report) hcompact
  · exact hshown (by simp) (shows_toJson report) hpretty
  · exact ⟨_, _, hcompact, hpretty, toJson_eq_sorted report ▸ Json.same_sorted hreadable⟩
  · intro omitted value homitted hshows text htext
    exact hshown homitted hshows htext
  · intro omitted value homitted hshows hvalue
    exact ⟨hshown homitted hshows (Json.parse_compact hvalue),
      hshown homitted hshows (Json.parse_pretty hvalue)⟩

/-- A rejected program with numbers as large as they get, and two block entries. -/
def largest : Report where
  fork := .tangerineWhistle
  codeSize := 18446744073709551615
  verdict := .invalid ⟨18446744073709551615, .stackMisalignment⟩
  blockEntries := [0, 18446744073709551615]
  routines := 18446744073709551615

/-- The verdict of that report with the depth of an accepted program. -/
def annotatedVerdict : Json :=
  .object (("max_stack_depth", .null) :: largest.verdict.fields)

/-- That report with a note, and without its routines. -/
def annotated : Json :=
  .object (("note", .array [.null]) ::
    (largest.fields annotatedVerdict).filter fun field => field.1 ∉ ["routines"])

theorem shows_annotated : largest.Shows ["routines"] annotated := by
  refine ⟨annotatedVerdict, (Json.shows_fields _).cons (by decide), ?_⟩
  exact (Json.shows_filter _ _).cons (by decide)

theorem readable_annotated : annotated.Readable := by
  have hverdict : annotatedVerdict.Readable := by
    refine .object (by decide) ?_
    intro field hfield
    rcases List.mem_cons.1 hfield with rfl | hfield
    · exact .null
    · exact Verdict.readable_fields _ field hfield
  refine .object (by decide) ?_
  intro field hfield
  rcases List.mem_cons.1 hfield with rfl | hfield
  · exact .array (by simpa using .null)
  · exact readable_fields largest hverdict field (List.mem_filter.1 hfield).1

theorem comesBack_largest : largest.Fits ∧ largest.ComesBack ∧
    parse annotated.pretty = some { largest with routines := 0 } := by
  have hfits : largest.Fits :=
    ⟨by decide, by unfold Verdict.Fits largest; decide, by decide, by decide⟩
  have hback := comesBack hfits
  exact ⟨hfits, hback, (hback.written _ _ (by decide) shows_annotated readable_annotated).2⟩

end Report

end EvmSafety
