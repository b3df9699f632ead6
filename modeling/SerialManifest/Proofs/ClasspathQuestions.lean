import SerialManifest.Proofs.ClasspathHierarchy
import SerialManifest.Proofs.NameJudgement

namespace SerialManifest

/-- The questions that can be put to a classpath. -/
inductive Question where
  | classFile (name : String)
  | kind (name : String)
  | isAbstract (name : String)
  | simpleName (name : String)
  | implements (name capability : String)
  | implementsAny (name : String) (capabilities : List String)
  | field (name field : String)
deriving DecidableEq, Repr

abbrev Question.Answer : Question → Type
  | .classFile _ => Option ClassFile
  | .kind _ => TypeKind
  | .isAbstract _ => Bool
  | .simpleName _ => String
  | .implements _ _ => Bool
  | .implementsAny _ _ => Bool
  | .field _ _ => Option Field

namespace Classpath

variable {classpath : Classpath} {tree : FileTree}

def ask (classpath : Classpath) (tree : FileTree) : (question : Question) → Query ClassCache question.Answer
  | .classFile name => classpath.classFile? tree name
  | .kind name => (classpath.facts tree).kind name
  | .isAbstract name => (classpath.facts tree).isAbstract name
  | .simpleName name => (classpath.facts tree).simpleName name
  | .implements name capability => (classpath.facts tree).implements name capability
  | .implementsAny name capabilities => (classpath.facts tree).implementsAny name capabilities
  | .field name field => (classpath.facts tree).field? name field

def answer (classpath : Classpath) (tree : FileTree) (cache : ClassCache) (question : Question) :
    Except QueryError question.Answer :=
  ((classpath.ask tree question).run.run cache).1

def remember (classpath : Classpath) (tree : FileTree) (cache : ClassCache) (question : Question) :
    ClassCache :=
  ((classpath.ask tree question).run.run cache).2

/-- What is remembered after these questions, by a classpath that has not been asked anything before. -/
def memoryAfter (classpath : Classpath) (tree : FileTree) (asked : List Question) : ClassCache :=
  asked.foldl (classpath.remember tree) .empty

/-- The answer for which every class file is read afresh. -/
def answerAfresh (classpath : Classpath) (tree : FileTree) :
    (question : Question) → Except QueryError question.Answer
  | .classFile name => classpath.definition tree name
  | .kind name => outcomeOf ((classpath.factsAfresh tree).kind name)
  | .isAbstract name => outcomeOf ((classpath.factsAfresh tree).isAbstract name)
  | .simpleName name => outcomeOf ((classpath.factsAfresh tree).simpleName name)
  | .implements name capability => outcomeOf ((classpath.factsAfresh tree).implements name capability)
  | .implementsAny name capabilities =>
    outcomeOf ((classpath.factsAfresh tree).implementsAny name capabilities)
  | .field name field => outcomeOf ((classpath.factsAfresh tree).field? name field)

/-- A question has one answer, whatever is remembered, and what it adds to the memory is true to the files. -/
theorem ask_gives (built : classpath.Built) (question : Question) :
    Gives (ClassCache.Faithful classpath tree) (classpath.ask tree question)
      (classpath.answerAfresh tree question) := by
  have follows : (classpath.facts tree).Follows (ClassCache.Faithful classpath tree)
      (classpath.factsAfresh tree) := facts_follows built
  cases question with
  | classFile name => exact classFile?_gives built name
  | kind name => exact follows.kind name
  | isAbstract name => exact follows.isAbstract name
  | simpleName name => exact follows.simpleName name
  | implements name capability => exact follows.implements name capability
  | implementsAny name capabilities =>
    exact (follows.relates name).implementsAny TypeFacts.gives_composes capabilities
  | field name field => exact follows.field? name field

theorem answer_of_faithful (built : classpath.Built) {cache : ClassCache}
    (faithful : cache.Faithful classpath tree) (question : Question) :
    classpath.answer tree cache question = classpath.answerAfresh tree question :=
  (ask_gives built question cache faithful).1

theorem faithful_remember (built : classpath.Built) {cache : ClassCache}
    (faithful : cache.Faithful classpath tree) (question : Question) :
    (classpath.remember tree cache question).Faithful classpath tree :=
  (ask_gives built question cache faithful).2

theorem faithful_memoryAfter (built : classpath.Built) (tree : FileTree) (asked : List Question) :
    (classpath.memoryAfter tree asked).Faithful classpath tree := by
  have hfold : ∀ cache : ClassCache, cache.Faithful classpath tree →
      (asked.foldl (classpath.remember tree) cache).Faithful classpath tree := by
    induction asked with
    | nil => exact fun cache faithful => faithful
    | cons question asked ih =>
      intro cache faithful
      exact ih _ (faithful_remember built faithful question)
  exact hfold .empty (ClassCache.faithful_empty classpath tree)

/-- What has been asked before does not change what is answered, be it an answer or an error. -/
theorem answer_of_earlier (built : classpath.Built) (tree : FileTree) (earlier : List Question)
    (question : Question) : classpath.answer tree (classpath.memoryAfter tree earlier) question =
      classpath.answer tree .empty question := by
  have hearlier := answer_of_faithful built (faithful_memoryAfter built tree earlier) question
  have hfresh := answer_of_faithful built (ClassCache.faithful_empty classpath tree) question
  exact hearlier.trans hfresh.symm

/-- Two classes that extend each other, and an archive with a class that extends one of them and an entry that
cannot be read. -/
def archiveTree : FileTree :=
  cyclicTree.put ["c.jar", "lib"] (.file (.archive ⟨[
    ⟨"C.class", ClassFile.plainBytes "C" "A" [], none⟩,
    ⟨"D.class", [], some .badChecksum⟩]⟩))

/-- After a search that has read all classes and after a failure, a search comes to what it always comes to. -/
theorem answer_of_archiveTree :
    let classpath := (Classpath.empty.addRoot archiveTree "lib").1
    let earlier := [Question.implements "C" "java.lang.Cloneable", .kind "D", .classFile "E"]
    classpath.Built ∧ (classpath.answer archiveTree .empty (.kind "D")).toOption = none ∧
      ((classpath.memoryAfter archiveTree earlier).classes.map Prod.fst,
        (classpath.memoryAfter archiveTree earlier).archives.map Prod.fst) =
          (["B", "A", "C"], [Path.key "lib/c.jar"]) ∧
      (classpath.answer archiveTree (classpath.memoryAfter archiveTree earlier)
        (.implements "C" "java.io.Serializable")).toOption = some true := by
  intro classpath earlier
  have built : classpath.Built := .addRoot .empty archiveTree "lib"
  refine ⟨built, by decide +kernel, by decide +kernel, ?_⟩
  rw [answer_of_earlier built]
  decide +kernel

end Classpath

end SerialManifest
