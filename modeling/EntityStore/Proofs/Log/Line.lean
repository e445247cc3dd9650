import EntityStore.Log.Entry
import EntityStore.Proofs.Json.Scan
import EntityStore.Proofs.Json.Merge
import Mathlib.Data.List.Permutation
import Mathlib.Tactic.FinCases

/-! A line of the log gives its entry back, with its severity in capitals (`Log.Entry.reads_back`).
Names and values are strings in quotes, which are one token whatever follows them, so no name and no
value can end a string, a member or a line: the tokens of a line are those of its members
(`Log.scan_members`), and reading these tokens gives the object of the members
(`Document.read_members`). -/

namespace EntityStore

theorem Severity.label_injective : Function.Injective label := by
  intro s s' h
  cases s <;> cases s' <;> first | rfl | exact absurd h (by decide)

/-! ## Reading members -/

/-- The tokens of a member: its name, a colon, and its value. -/
def Token.ofMember (m : String × String) : List Token :=
  [.string (some m.1), .colon, .string (some m.2)]

namespace Document

open Reading

/-- A member whose value is a string. -/
def ofMember (m : String × String) : Option String × Document := (some m.1, .string (some m.2))

/-- A member may stand behind a brace or behind a comma. -/
theorem read_member (m : String × String) {phase : Phase}
    (hphase : phase = .firstName ∨ phase = .name) (done : List (Option String × Document))
    (name : Option String) (outer : List Frame) :
    (Token.ofMember m).foldlM step ⟨.object done name :: outer, phase⟩ =
      some ⟨.object (ofMember m :: done) (some m.1) :: outer, .separator⟩ := by
  rcases hphase with rfl | rfl <;> rfl

/-- The members up to the end of the object, in any number but none. -/
theorem read_members (m : String × String) (ms : List (String × String)) {phase : Phase}
    (hphase : phase = .firstName ∨ phase = .name) (done : List (Option String × Document))
    (name : Option String) (outer : List Frame) :
    ([Token.comma].intercalate ((m :: ms).map Token.ofMember) ++ [Token.closeObject]).foldlM step
        ⟨.object done name :: outer, phase⟩ =
      some (deliver (.object (done.reverse ++ (m :: ms).map ofMember)) outer) := by
  induction ms generalizing m phase done name with
  | nil =>
    rw [List.map_singleton, List.intercalate_singleton, List.foldlM_append, read_member m hphase,
      List.map_singleton, ← List.reverse_cons]
    rfl
  | cons next ms ih =>
    rw [List.map_cons, List.map_cons, List.intercalate_cons_cons, List.append_assoc,
      List.append_assoc, List.foldlM_append, read_member m hphase]
    have htail := ih next (.inr rfl) (ofMember m :: done) (some m.1)
    rw [List.reverse_cons, List.append_assoc, List.singleton_append] at htail
    exact htail

theorem depthFields_ofMember (ms : List (String × String)) :
    depthFields (ms.map ofMember) = 0 := by
  induction ms with
  | nil => rfl
  | cons m ms ih =>
    rw [List.map_cons, ofMember, depthFields, ih]
    rfl

theorem toJsonFields?_ofMember (ms : List (String × String)) :
    toJsonFields? (ms.map ofMember) = some (ms.map fun m => (m.1, .str m.2)) := by
  induction ms with
  | nil => rfl
  | cons m ms ih =>
    rw [List.map_cons, ofMember, toJsonFields?, ih]
    rfl

end Document

namespace Log

/-! ## Scanning members -/

/-- What the reader takes an escaped character for: the character itself or, if there is no shorter
form for it, its code. -/
def piece (c : Char) : Token.Piece :=
  if isControl c ∧ c ∉ ['\n', '\r', '\t'] then .unit c.toNat else .char c

theorem isControl_iff {c : Char} :
    isControl c = true ↔ c.toNat < 0x20 ∨ 0x7F ≤ c.toNat ∧ c.toNat < 0xA0 := by
  simp [isControl]

theorem writes_escape (c : Char) : Token.Writes c (escape c) (piece c) := by
  by_cases hshort : c ∈ ['"', '\\', '\n', '\r', '\t']
  · fin_cases hshort <;> exact .short (by decide) rfl
  · simp only [List.mem_cons, List.not_mem_nil, or_false, not_or] at hshort
    obtain ⟨hquote, hslash, hn, hr, ht⟩ := hshort
    simp only [escape, piece, hquote, hslash, hn, hr, ht, if_false, List.mem_cons,
      List.not_mem_nil, or_self, not_false_eq_true, and_true]
    by_cases hcontrol : isControl c
    · rw [if_pos hcontrol, if_pos hcontrol]
      have hcode := isControl_iff.mp hcontrol
      exact .code (by omega)
    · rw [if_neg hcontrol, if_neg hcontrol]
      exact .plain hquote hslash fun h => hcontrol (isControl_iff.mpr (.inl h))

theorem scan_quote (text : String) (rest : List Char) :
    Token.scan (quote text.toList ++ rest) =
      (Token.scan rest).map (.string (some text) :: ·) := by
  rw [quote, List.append_assoc]
  exact Token.scan_quoted writes_escape text rest

theorem scan_member (m : String × String) (rest : List Char) :
    Token.scan (member m.1 m.2 ++ rest) = (Token.scan rest).map (Token.ofMember m ++ ·) := by
  rw [member, List.append_assoc, List.cons_append, scan_quote,
    Token.scan_punctuation rfl, scan_quote]
  cases Token.scan rest <;> rfl

theorem scan_members (m : String × String) (ms : List (String × String)) (rest : List Char) :
    Token.scan ([','].intercalate ((m :: ms).map fun m => member m.1 m.2) ++ rest) =
      (Token.scan rest).map ([Token.comma].intercalate ((m :: ms).map Token.ofMember) ++ ·) := by
  induction ms generalizing m with
  | nil =>
    rw [List.map_singleton, List.map_singleton, List.intercalate_singleton,
      List.intercalate_singleton, scan_member]
  | cons next ms ih =>
    have htail := ih next
    rw [List.map_cons, List.map_cons] at htail ⊢
    rw [List.map_cons, List.map_cons, List.intercalate_cons_cons, List.intercalate_cons_cons,
      List.append_assoc, List.append_assoc, scan_member, List.singleton_append,
      Token.scan_punctuation rfl, htail]
    cases Token.scan rest <;> simp

/-! ## Lines -/

theorem newline_notMem_quote (text : List Char) : '\n' ∉ quote text := by
  rw [quote, List.mem_append, List.mem_cons, List.mem_flatMap, List.mem_singleton]
  rintro ((h | ⟨c, -, h⟩) | h)
  · exact absurd h (by decide)
  · exact (writes_escape c).newline_notMem h
  · exact absurd h (by decide)

theorem newline_notMem_member (name value : String) : '\n' ∉ member name value := by
  rw [member, List.mem_append, List.mem_cons]
  rintro (h | h | h)
  · exact newline_notMem_quote _ h
  · exact absurd h (by decide)
  · exact newline_notMem_quote _ h

theorem newline_notMem_members (ms : List (String × String)) :
    '\n' ∉ [','].intercalate (ms.map fun m => member m.1 m.2) := by
  match ms with
  | [] => exact List.not_mem_nil
  | [m] =>
    rw [List.map_singleton, List.intercalate_singleton]
    exact newline_notMem_member m.1 m.2
  | m :: next :: ms =>
    have htail := newline_notMem_members (next :: ms)
    rw [List.map_cons] at htail
    rw [List.map_cons, List.map_cons, List.intercalate_cons_cons, List.mem_append,
      List.mem_append, List.mem_singleton]
    rintro ((h | h) | h)
    · exact newline_notMem_member m.1 m.2 h
    · exact absurd h (by decide)
    · exact htail h

theorem sortFields_perm (fields : List (String × String)) : (sortFields fields).Perm fields :=
  List.mergeSort_perm _ _

theorem pairwise_sortFields (fields : List (String × String)) :
    (sortFields fields).Pairwise fun a b => a.1 ≤ b.1 := by
  have hpairwise : (sortFields fields).Pairwise fun a b => decide (a.1 ≤ b.1) = true := by
    refine List.pairwise_mergeSort (fun a b c hab hbc => ?_) (fun a b => ?_) fields
    · exact decide_eq_true (String.le_trans (of_decide_eq_true hab) (of_decide_eq_true hbc))
    · simpa using String.le_total a.1 b.1
  exact hpairwise.imp of_decide_eq_true

/-- Fields with different names have one order. -/
theorem sortFields_eq_of_perm {fields fields' : List (String × String)}
    (h : fields'.Perm fields) (hnodup : (Fields.names fields).Nodup) :
    sortFields fields' = sortFields fields := by
  have hperm := (sortFields_perm fields').trans (h.trans (sortFields_perm fields).symm)
  refine hperm.eq_of_pairwise (fun a b ha hb hab hba => ?_) (pairwise_sortFields _)
    (pairwise_sortFields _)
  exact List.inj_on_of_nodup_map hnodup (h.subset ((sortFields_perm _).subset ha))
    ((sortFields_perm _).subset hb) (String.le_antisymm hab hba)

namespace Entry

variable {e : Entry}

theorem toList_line (e : Entry) : e.line.toList =
    '\x7b' :: ([','].intercalate (e.members.map fun m => member m.1 m.2) ++ ['\x7d']) :=
  String.toList_ofList

theorem toList_text (e : Entry) : e.text.toList = e.line.toList ++ ['\n'] :=
  String.toList_append

theorem newline_notMem_line (e : Entry) : '\n' ∉ e.line.toList := by
  rw [toList_line, List.mem_cons, List.mem_append, List.mem_singleton]
  rintro (h | h | h)
  · exact absurd h (by decide)
  · exact newline_notMem_members e.members h
  · exact absurd h (by decide)

theorem scan_text (e : Entry) : Token.scan e.text.toList =
    some (.openObject :: ([Token.comma].intercalate (e.members.map Token.ofMember) ++
      [.closeObject])) := by
  have hend : Token.scan ['\x7d', '\n'] = some [.closeObject] := by
    rw [Token.scan_punctuation rfl]
    simp [Token.scan, Token.isBlank]
  rw [toList_text, toList_line, List.cons_append, List.append_assoc, Token.scan_punctuation rfl,
    members, List.cons_append, List.singleton_append, scan_members, List.singleton_append, hend]
  rfl

theorem read?_text (e : Entry) :
    Document.read? e.text = some (.object (e.members.map Document.ofMember)) := by
  have hopen : Document.Reading.step ⟨[], .value⟩ .openObject =
      some ⟨[.object [] none], .firstName⟩ := rfl
  have hmembers : ([Token.comma].intercalate (e.members.map Token.ofMember) ++
      [Token.closeObject]).foldlM Document.Reading.step ⟨[.object [] none], .firstName⟩ =
        some ⟨[], .done (.object (e.members.map Document.ofMember))⟩ :=
    Document.read_members ("event", e.event)
      (("severity", e.severity.label) :: sortFields e.fields) (.inl rfl) [] none []
  rw [Document.read?, scan_text, Option.bind_eq_bind, Option.bind_some, List.foldlM_cons]
  simp only [hopen, Option.bind_eq_bind, Option.bind_some, hmembers]

/-- A line is the object of its members. -/
theorem parse?_text (h : (Fields.names e.members).Nodup) :
    Json.parse? e.text = some (.obj (e.members.map fun m => (m.1, .str m.2))) := by
  have hnames : (Fields.names (e.members.map fun m => (m.1, Json.str m.2))).Nodup := by
    rw [Fields.names, List.map_map]
    exact h
  have hdepth : (Document.object (e.members.map Document.ofMember)).depth = 1 := by
    rw [Document.depth, Document.depthFields_ofMember]
  rw [Json.parse?, read?_text, Option.bind_eq_bind, Option.bind_some, hdepth,
    if_pos (by decide), Document.toJson?, Document.toJsonFields?_ofMember, Option.map_some,
    Fields.ofEntries, Fields.merge_empty hnames]

theorem nodup_names_members (h : ("event" :: "severity" :: Fields.names e.fields).Nodup) :
    (Fields.names e.members).Nodup := by
  have hnames : Fields.names e.members =
      "event" :: "severity" :: Fields.names (sortFields e.fields) := rfl
  rw [hnames]
  exact ((((sortFields_perm e.fields).map _).cons _).cons _).nodup_iff.mpr h

/-- Two entries with one text have the same severity, the same event and the same fields, up to the
order of the fields. -/
theorem eq_of_text_eq {e' : Entry} (h : ("event" :: "severity" :: Fields.names e.fields).Nodup)
    (h' : ("event" :: "severity" :: Fields.names e'.fields).Nodup) (htext : e'.text = e.text) :
    e'.severity = e.severity ∧ e'.event = e.event ∧ e'.fields.Perm e.fields := by
  have hparse := parse?_text (nodup_names_members h')
  rw [htext, parse?_text (nodup_names_members h)] at hparse
  have hmember : Function.Injective fun m : String × String => (m.1, Json.str m.2) := by
    rintro ⟨name, value⟩ ⟨name', value'⟩ hm
    cases hm
    rfl
  have hmembers : e'.members = e.members :=
    (List.map_injective_iff.mpr hmember (Json.obj.inj (Option.some.inj hparse))).symm
  obtain ⟨hevent, hrest⟩ := List.cons.inj hmembers
  obtain ⟨hlabel, hfields⟩ := List.cons.inj hrest
  have hsorted : sortFields e'.fields = sortFields e.fields := hfields
  have hperm := (sortFields_perm e'.fields).symm
  rw [hsorted] at hperm
  exact ⟨Severity.label_injective (Prod.mk.inj hlabel).2, (Prod.mk.inj hevent).2,
    hperm.trans (sortFields_perm e.fields)⟩

/-- A line of the log gives its entry back. If the names of the fields differ from each other and
from `event` and `severity`, what is written is one line, the line is the object of the event, the
severity in capitals and the fields, each with its value, and it does not depend on the order of the
fields. Entries that differ in anything else have different lines. -/
theorem reads_back (e : Entry)
    (h : ("event" :: "severity" :: Fields.names e.fields).Nodup) :
    let severity := match e.severity with
      | .trace => "TRACE"
      | .info => "INFO"
      | .warn => "WARN"
      | .error => "ERROR"
      | .fatal => "FATAL"
    (∃ line, '\n' ∉ line ∧ e.text.toList = line ++ ['\n']) ∧
      (∃ sorted : List (String × String), sorted.Perm e.fields ∧
        (sorted.Pairwise fun a b => a.1 ≤ b.1) ∧
        Json.parse? e.text = some (.obj (("event", .str e.event) ::
          ("severity", .str severity) :: sorted.map fun f => (f.1, .str f.2)))) ∧
      (∀ fields' : List (String × String), fields'.Perm e.fields →
        ({ e with fields := fields' } : Entry).text = e.text) ∧
      ∀ e' : Entry, ("event" :: "severity" :: Fields.names e'.fields).Nodup → e'.text = e.text →
        e'.severity = e.severity ∧ e'.event = e.event ∧ e'.fields.Perm e.fields := by
  intro severity
  have hlabel : e.severity.label = severity := rfl
  have hparse := parse?_text (nodup_names_members h)
  rw [← hlabel]
  refine ⟨⟨e.line.toList, newline_notMem_line e, toList_text e⟩,
    ⟨sortFields e.fields, sortFields_perm e.fields, pairwise_sortFields e.fields, hparse⟩,
    fun fields' hperm => ?_, fun e' h' => eq_of_text_eq h h'⟩
  have horder := sortFields_eq_of_perm hperm h.of_cons.of_cons
  rw [text, text, line, line, members, members, horder]

/-- The name of the second field tries to end its string and to forge an event. -/
theorem reads_back_crafted :
    let fields : List (String × String) :=
      [("zebra", "1\u0085"), ("id\",\"event\":\"x", "a\x7f\\")]
    (∀ entry ∈ [(Severity.trace, "TRACE"), (.info, "INFO"), (.warn, "WARN"), (.error, "ERROR"),
        (.fatal, "FATAL")],
      Json.parse? (text ⟨entry.1, "ROW\n", fields⟩) =
        some (.obj [("event", .str "ROW\n"), ("severity", .str entry.2),
          ("id\",\"event\":\"x", .str "a\x7f\\"), ("zebra", .str "1\u0085")])) ∧
      text ⟨.warn, "ROW\n", fields.reverse⟩ = text ⟨.warn, "ROW\n", fields⟩ ∧
      text ⟨.fatal, "ROW\n", fields⟩ ≠ text ⟨.warn, "ROW\n", fields⟩ := by
  intro fields
  have hnames : ("event" :: "severity" :: Fields.names fields).Nodup := by decide
  have hparse (severity : Severity) : Json.parse? (text ⟨severity, "ROW\n", fields⟩) =
      some (.obj [("event", .str "ROW\n"), ("severity", .str severity.label),
        ("id\",\"event\":\"x", .str "a\x7f\\"), ("zebra", .str "1\u0085")]) := by
    obtain ⟨-, ⟨sorted, hperm, hsorted, hparse⟩, -⟩ :=
      reads_back ⟨severity, "ROW\n", fields⟩ hnames
    rcases List.perm_pair.mp hperm with rfl | rfl
    · exact absurd hsorted (by decide)
    · exact hparse
  obtain ⟨-, -, horder, hdiffer⟩ := reads_back ⟨.warn, "ROW\n", fields⟩ hnames
  refine ⟨?_, horder _ fields.reverse_perm, fun h => ?_⟩
  · rintro entry hentry
    fin_cases hentry
    · exact hparse .trace
    · exact hparse .info
    · exact hparse .warn
    · exact hparse .error
    · exact hparse .fatal
  · cases (hdiffer ⟨.fatal, "ROW\n", fields⟩ hnames h).1

end Entry

end Log

end EntityStore
