import SerialManifest.Proofs.JsonReader
import SerialManifest.Proofs.RunReports

namespace SerialManifest

namespace Json

def member? (name : String) : Json → Option Json
  | .object members =>
    match members.filter (·.1 == name) with
    | [(_, value)] => some value
    | _ => none
  | _ => none

def text? : Json → Option String
  | .text value => some value
  | _ => none

def number? : Json → Option Nat
  | .number value => some value
  | _ => none

def items? : Json → Option (List Json)
  | .array items => some items
  | _ => none

end Json

/-- A violation as a summary tells it. -/
structure Complaint where
  subject : String
  kind : String
  message : String
deriving DecidableEq, Repr

def Complaint.ofJson? (document : Json) : Option Complaint := do
  let subject ← (← document.member? "subject_type").text?
  let kind ← (← document.member? "kind").text?
  let message ← (← document.member? "message").text?
  return ⟨subject, kind, message⟩

def Violation.complaint (violation : Violation) : Complaint :=
  ⟨violation.subject, violation.kind.name, violation.message⟩

/-- What a reader takes from a summary. -/
structure Summary where
  status : String
  complaints : List Complaint
  violations : Nat
  manifestEntries : Nat
  tally : Tally
deriving DecidableEq, Repr

namespace Summary

def ofJson? (document : Json) : Option Summary := do
  let status ← (← document.member? "status").text?
  let complaints ← (← (← document.member? "violations").items?).mapM Complaint.ofJson?
  let counts ← document.member? "summary"
  let count (name : String) : Option Nat := (counts.member? name).bind Json.number?
  return {
    status
    complaints
    violations := ← count "violations"
    manifestEntries := ← count "manifest_entries"
    tally := {
      roots := ← count "roots"
      candidates := ← count "candidates"
      included := ← count "included"
      eligible := ← count "manifest_eligible"
      checked := ← count "contract_checked" } }

def ofText? (text : String) : Option Summary :=
  (Json.decode? text).bind ofJson?

/-- The summary tells what a result has come to. -/
structure Tells (summary : Summary) (result : ScanResult) : Prop where
  status : summary.status = "failed" ↔ result.violations ≠ []
  complaints : summary.complaints = result.violations.map Violation.complaint
  violations : summary.violations = summary.complaints.length
  manifestEntries : summary.manifestEntries = result.manifest.length
  tally : summary.tally = result.tally

end Summary

theorem ViolationKind.name_injective : Function.Injective ViolationKind.name := by
  intro first second
  cases first <;> cases second <;> decide

theorem Violation.complaint_injective : Function.Injective Violation.complaint := by
  rintro ⟨subject, kind, message⟩ ⟨subject', kind', message'⟩ h
  obtain ⟨hsubject, hkind, hmessage⟩ := Complaint.mk.inj h
  rw [Violation.mk.injEq]
  exact ⟨hsubject, ViolationKind.name_injective hkind, hmessage⟩

theorem Complaint.ofJson?_summary (violation : Violation) :
    ofJson? violation.summary = some violation.complaint := by
  rfl

/-- Two results of which one summary tells are alike in all that it tells. -/
theorem Summary.Tells.alike {summary : Summary} {first second : ScanResult} (tells : summary.Tells first)
    (tells' : summary.Tells second) : first.tally = second.tally ∧
      first.manifest.length = second.manifest.length ∧ first.violations = second.violations :=
  ⟨tells.tally.symm.trans tells'.tally, tells.manifestEntries.symm.trans tells'.manifestEntries,
    Violation.complaint_injective.list_map (tells.complaints.symm.trans tells'.complaints)⟩

namespace ScanResult

def told (result : ScanResult) : Summary where
  status := result.status
  complaints := result.violations.map Violation.complaint
  violations := result.violations.length
  manifestEntries := result.manifest.length
  tally := result.tally

theorem tells_told (result : ScanResult) : result.told.Tells result where
  status := by
    by_cases h : result.violations = []
    · simp [told, status_of_kept h, h]
    · simp [told, status_of_broken h, h]
  complaints := rfl
  violations := by simp [told]
  manifestEntries := rfl
  tally := rfl

theorem mapM_summary (violations : List Violation) :
    (violations.map Violation.summary).mapM Complaint.ofJson? = some (violations.map Violation.complaint) := by
  induction violations with
  | nil => rfl
  | cons violation rest ih => simp [List.mapM_cons, Complaint.ofJson?_summary, ih]

theorem ofJson?_summary (result : ScanResult) : Summary.ofJson? result.summary = some result.told := by
  have hstatus : result.summary.member? "status" = some (.text result.status) := rfl
  have hcounts : result.summary.member? "summary" = some result.counts := rfl
  have hviolations : result.summary.member? "violations" =
    some (.array (result.violations.map Violation.summary)) := rfl
  unfold Summary.ofJson?
  rw [hstatus, hcounts, hviolations]
  simp only [Json.text?, Json.items?, Option.bind_eq_bind, Option.bind_some, mapM_summary]
  rfl

theorem ofText?_summary (result : ScanResult) : Summary.ofText? result.summary.render = some result.told := by
  rw [Summary.ofText?, Json.decode?_render, Option.bind_some, ofJson?_summary]

theorem node?_of_writeSummary {result : ScanResult} {path : String} {tree : FileTree} {place : Location}
    (hplace : tree.resolveForWriting path = .ok place) :
    ∃ files bytes, (result.writeSummary path).run.run tree = (.ok (), files) ∧
      files.node? place = some (.file (.bytes bytes)) ∧
      Text.Utf8.decode? bytes = some result.summary.render := by
  refine ⟨tree.fill place result.summaryContent, Text.Utf8.encode result.summary.render, ?_, ?_,
    Text.Utf8.decode?_encode _⟩
  · rw [run_writeSummary, hplace]
  · exact FileTree.node?_fill_of_oneFile
      (FileTree.ne_nil_of_refusal? (FileTree.refusal?_of_resolveForWriting hplace)) (.refl tree place)

/-- The summary of a result decodes to what it has come to: whether there are violations, all of them in order
with their texts unchanged, how many they are, how many names the manifest has, and how much was looked at.
Where there is a place for it, a file with that text is left behind. So results that differ in any of this never
have the same text. -/
theorem tells_of_summary (result : ScanResult) :
    (∃ summary, Summary.ofText? result.summary.render = some summary ∧ summary.Tells result) ∧
    (∀ (path : String) (tree : FileTree) (place : Location), tree.resolveForWriting path = .ok place →
      ∃ files bytes, (result.writeSummary path).run.run tree = (.ok (), files) ∧
        files.node? place = some (.file (.bytes bytes)) ∧
        Text.Utf8.decode? bytes = some result.summary.render) ∧
    ∀ other : ScanResult, other.tally ≠ result.tally ∨ other.manifest.length ≠ result.manifest.length ∨
      other.violations ≠ result.violations → other.summary.render ≠ result.summary.render := by
  refine ⟨⟨result.told, ofText?_summary result, tells_told result⟩,
    fun _ _ _ hplace => node?_of_writeSummary hplace, fun other hdiffer htext => ?_⟩
  have htold : other.told = result.told := by
    have hother := ofText?_summary other
    rw [htext, ofText?_summary] at hother
    exact (Option.some.inj hother).symm
  obtain ⟨htally, hlength, hviolations⟩ := other.tells_told.alike (htold ▸ result.tells_told)
  rcases hdiffer with hne | hne | hne
  · exact hne htally
  · exact hne hlength
  · exact hne hviolations

/-- A result with a name that holds a quote, a backslash, a line break and controls, and with a message of
characters of one to four bytes. -/
def oddResult : ScanResult where
  manifestName := "m"
  manifest := ["a.B", "a.C"]
  violations := [⟨"a.\"\\\n\x00\x7F", .missingField, "Aé✓𝄞"⟩]
  tally := ⟨1, 12, 3, 2, 2⟩

theorem tells_of_oddResult :
    let tree : FileTree := .around ["job"]
    tree.resolveForWriting "summary.json" = .ok ["summary.json", "job"] ∧
    ∃ files bytes text summary, (oddResult.writeSummary "summary.json").run.run tree = (.ok (), files) ∧
      files.node? ["summary.json", "job"] = some (.file (.bytes bytes)) ∧
      Text.Utf8.decode? bytes = some text ∧ Summary.ofText? text = some summary ∧
      summary.status = "failed" ∧ summary.complaints = [⟨"a.\"\\\n\x00\x7F", "missing_field", "Aé✓𝄞"⟩] ∧
      summary.violations = 1 ∧ summary.manifestEntries = 2 ∧ summary.tally = ⟨1, 12, 3, 2, 2⟩ ∧
      { oddResult with violations := [] }.summary.render ≠ text := by
  intro tree
  have hplace : tree.resolveForWriting "summary.json" = .ok ["summary.json", "job"] := by decide +kernel
  obtain ⟨⟨summary, hsummary, tells⟩, hwritten, hdiffer⟩ := oddResult.tells_of_summary
  obtain ⟨files, bytes, hrun, hnode, hbytes⟩ := hwritten "summary.json" tree _ hplace
  have hcount : summary.violations = 1 := by
    rw [tells.violations, tells.complaints]
    rfl
  exact ⟨hplace, files, bytes, _, summary, hrun, hnode, hbytes, hsummary, tells.status.2 (by decide),
    tells.complaints, hcount, tells.manifestEntries, tells.tally, hdiffer _ (.inr (.inr (by decide)))⟩

end ScanResult

end SerialManifest
