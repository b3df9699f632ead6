import SerialManifest.Proofs.RunFootprint

namespace SerialManifest

namespace Text

/-- The lines of a text. What stands behind the last newline is a line if there is anything. -/
def lines (text : String) : List String :=
  let pieces := split '\n' text.toList
  (if pieces.getLast? = some [] then pieces.dropLast else pieces).map String.ofList

/-- The lines that a text fills when a newline is put behind it. -/
def linesOf (text : String) : List String :=
  (split '\n' text.toList).map String.ofList

theorem split_join_terminated (texts : List String) :
    split '\n' (String.join (texts.map (· ++ "\n"))).toList =
      texts.flatMap (fun text => split '\n' text.toList) ++ [[]] := by
  induction texts with
  | nil => rfl
  | cons text others ih =>
    have htext : (String.join ((text :: others).map (· ++ "\n"))).toList =
        text.toList ++ '\n' :: (String.join (others.map (· ++ "\n"))).toList := by
      simp [String.join_cons]
    rw [htext, split_append_sep, ih, List.flatMap_cons, List.append_assoc]

theorem lines_join (texts : List String) :
    lines (String.join (texts.map (· ++ "\n"))) = texts.flatMap linesOf := by
  rw [lines, split_join_terminated]
  simp only [List.getLast?_concat, ↓reduceIte, List.dropLast_concat, List.map_flatMap]
  rfl

theorem not_mem_of_mem_linesOf {text line : String} (h : line ∈ linesOf text) : '\n' ∉ line.toList := by
  obtain ⟨piece, hm, rfl⟩ := List.mem_map.1 h
  rw [String.toList_ofList]
  exact not_mem_of_mem_split hm

theorem linesOf_of_not_mem {text : String} (h : '\n' ∉ text.toList) : linesOf text = [text] := by
  rw [linesOf, split_of_not_mem h]
  simp

/-- Texts are read back line by line if and only if none of them holds a newline. -/
theorem flatMap_linesOf_eq_iff {texts : List String} :
    texts.flatMap linesOf = texts ↔ ∀ text ∈ texts, '\n' ∉ text.toList := by
  constructor
  · -- a text that is read back is one of the lines, and no line holds a newline
    intro he text hm
    rw [← he] at hm
    obtain ⟨other, _, hline⟩ := List.mem_flatMap.1 hm
    exact not_mem_of_mem_linesOf hline
  · intro h
    induction texts with
    | nil => rfl
    | cons text others ih =>
      have hfirst := linesOf_of_not_mem (h text List.mem_cons_self)
      have hothers := ih fun other ho => h other (List.mem_cons_of_mem text ho)
      rw [List.flatMap_cons, hfirst, hothers]
      rfl

end Text

namespace Settings

variable {settings : Settings} {tree : FileTree} {result : ScanResult}

/-- Below the header of a manifest stand the lines that the names fill: the names themselves, if and only if
none of them holds a newline. The names are those of governed types that were found and are to be listed. -/
theorem lines_of_generate {ended : RunState} (h : settings.generate.onFiles tree = (.ok result, ended)) :
    (∃ before place body, FileTree.Replaced before ended.files settings.manifestFile place
        (Text.Utf8.encode (settings.header ++ "\n\n" ++ body)) ∧
      Text.lines body = result.manifest.flatMap Text.linesOf ∧
      (Text.lines body = result.manifest ↔ ∀ name ∈ result.manifest, '\n' ∉ name.toList)) ∧
    ∃ classpath, settings.types tree = .ok classpath ∧ ∀ name, name ∈ result.manifest ↔
      (∃ root ∈ settings.classpath, ∃ candidate ∈ (tree.walk root).found, candidate.name = name) ∧
        (∃ lead ∈ settings.namespaces, ∃ rest, name.toList = lead.toList ++ rest) ∧
          settings.Lists classpath tree name := by
  cases ends_of_onFiles h with
  | written _ hscan hsummary _ hwrite =>
    obtain ⟨before, place, _, hreplaced⟩ := manifestWritten_of_written hsummary hwrite
    obtain ⟨classpath, htypes, houtcome⟩ := scan_eq_ok_iff.1 hscan
    have hlines := Text.lines_join result.manifest
    refine ⟨⟨before, place, _, hreplaced, hlines, ?_⟩, classpath, htypes, fun name => ?_⟩
    · rw [hlines, Text.flatMap_linesOf_eq_iff]
    · have hlisted := Scanner.mem_manifest_iff_reaches houtcome name
      rw [EligibilityRules.governs_iff] at hlisted
      exact hlisted

/-- Two names, and a line for each. -/
theorem lines_of_cyclicTree : ∃ result ended before place body,
    sample.generate.onFiles Classpath.cyclicTree = (.ok result, ended) ∧
      FileTree.Replaced before ended.files sample.manifestFile place
        (Text.Utf8.encode ("#" ++ "\n\n" ++ body)) ∧
      Text.lines body = ["A", "B"] := by
  have hlisted : (sample.generate.onFiles Classpath.cyclicTree).1.toOption.map (·.manifest) =
      some ["A", "B"] := by
    decide +kernel
  obtain ⟨result, hr, hm⟩ := Option.map_eq_some_iff.1 hlisted
  generalize hrun : sample.generate.onFiles Classpath.cyclicTree = after at hr
  obtain ⟨outcome, ended⟩ := after
  have hok : outcome = .ok result := Except.toOption_eq_some_iff.1 hr
  subst hok
  obtain ⟨⟨before, place, body, hreplaced, _, hlines⟩, _⟩ := lines_of_generate hrun
  refine ⟨result, ended, before, place, body, rfl, hreplaced, ?_⟩
  rw [hm] at hlines
  refine hlines.2 ?_
  decide

/-- A file whose name holds a newline defines one type, and the manifest names two. The second one is neither
governed nor defined anywhere. -/
theorem lines_of_brokenName :
    let tree := FileTree.ofFiles "lib" [
      ("A\nC.class", ClassFile.plainBytes "A" "java.lang.Object" ["java.io.Serializable"])]
    (sample.generate.onFiles tree).1.toOption.map (·.manifest) = some ["A\nC"] ∧
      ((sample.generate.onFiles tree).2.files.readBytes sample.manifestFile).toOption =
        some (Text.Utf8.encode (sample.header ++ "\n\n" ++ "A\nC\n")) ∧
      Text.lines "A\nC\n" = ["A", "C"] ∧ sample.rules.governs "C" = false ∧
      ∀ candidate ∈ tree.findings sample.classpath, candidate.name ≠ "C" := by
  intro tree
  refine ⟨?_, ?_, ?_, ?_, ?_⟩
  · decide +kernel
  · decide +kernel
  · decide +kernel
  · decide +kernel
  · decide +kernel

end Settings

end SerialManifest
