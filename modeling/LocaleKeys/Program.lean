import LocaleKeys.Console
import LocaleKeys.FileSystem

/-! Programs as trees of requests. A program either has ended with a value or
asks its surroundings for something and goes on with the reply. What files hold,
what was shown and which numbers were drawn is the business of the surroundings,
so a program can be run against a file system that is a value. -/
namespace LocaleKeys

inductive Request
  /-- The absolute path of the working directory. -/
  | workingDirectory
  /-- Whether there is anything at a path. -/
  | isPresent (path : String)
  /-- The text of a file. -/
  | read (path : String)
  /-- A directory and all that lead to it are created. -/
  | createDirectories (path : String)
  /-- A file is created or given another text. -/
  | write (path text : String)
  /-- Something is shown. -/
  | tell (output : Console.Output)
  /-- A number for draws at random. -/
  | seed

namespace Request

/-- What a request is answered with. -/
def Reply : Request → Type
  | .workingDirectory => String
  | .isPresent _ => Bool
  | .read _ => Except Access.Failure String
  | .createDirectories _ => Except Access.Failure Unit
  | .write _ _ => Except Access.Failure Unit
  | .tell _ => Unit
  | .seed => Nat

end Request

inductive Program (Result : Type) : Type
  | done (result : Result)
  | query (request : Request) (next : request.Reply → Program Result)

namespace Program

def bind {A B : Type} (program : Program A) (next : A → Program B) : Program B :=
  match program with
  | .done result => next result
  | .query request rest => .query request fun reply => (rest reply).bind next

instance : Monad Program where
  pure := .done
  bind := bind

theorem done_bind {A B : Type} (result : A) (next : A → Program B) :
    (Program.done result).bind next = next result := rfl

theorem bind_done {A : Type} (program : Program A) : program.bind .done = program := by
  induction program with
  | done result => rfl
  | query request rest ih => simp only [bind]; congr 1; funext reply; exact ih reply

theorem bind_assoc {A B C : Type} (program : Program A) (first : A → Program B)
    (second : B → Program C) :
    (program.bind first).bind second = program.bind fun result => (first result).bind second := by
  induction program with
  | done result => rfl
  | query request rest ih => simp only [bind]; congr 1; funext reply; exact ih reply

/-- Programs compose by the laws of monads, and so do steps that may fail. -/
instance : LawfulMonad Program :=
  LawfulMonad.mk' Program bind_done done_bind bind_assoc

/-- A request as a program of its own. -/
def ask (request : Request) : Program request.Reply := .query request .done

def workingDirectory : Program String := ask .workingDirectory

def isPresent (path : String) : Program Bool := ask (.isPresent path)

def read (path : String) : Program (Except Access.Failure String) := ask (.read path)

def createDirectories (path : String) : Program (Except Access.Failure Unit) :=
  ask (.createDirectories path)

def write (path text : String) : Program (Except Access.Failure Unit) := ask (.write path text)

def seed : Program Nat := ask .seed

def out (line : Console.Line) : Program Unit := ask (.tell (.out line))

def err (line : Console.Line) : Program Unit := ask (.tell (.err line))

def log (event : Log.Event) : Program Unit := ask (.tell (.log event))

/-- The surroundings as a value. -/
structure World where
  files : FileSystem
  /-- What was shown, in order. -/
  shown : List Console.Output := []
  seed : Nat := 0

/-- The reply of a world, and the world after it. -/
def World.answer (w : World) : (request : Request) → request.Reply × World
  | .workingDirectory => (FileSystem.pathOf w.files.workingDirectory, w)
  | .isPresent path => (w.files.isPresent path, w)
  | .read path => (w.files.read path, w)
  | .createDirectories path =>
      let (result, files) := w.files.createDirectories path
      (result, { w with files })
  | .write path text =>
      match w.files.write path text with
      | .ok files => (.ok (), { w with files })
      | .error e => (.error e, w)
  | .tell output => ((), { w with shown := w.shown ++ [output] })
  | .seed => (w.seed, w)

/-- The result of a program in a world, and the world after it. -/
def run {Result : Type} : Program Result → World → Result × World
  | .done result, w => (result, w)
  | .query request next, w => (next (w.answer request).1).run (w.answer request).2

theorem run_bind {A B : Type} (program : Program A) (next : A → Program B) (w : World) :
    (program.bind next).run w = (next (program.run w).1).run (program.run w).2 := by
  induction program generalizing w with
  | done result => rfl
  | query request rest ih => exact ih _ _

/-- A request that may fail, with its failure as one of the program's own. -/
def attempt {E F A : Type} (program : Program (Except E A)) (wrap : E → F) :
    ExceptT F Program A :=
  ExceptT.mk (program.bind fun result => .done (result.mapError wrap))

end Program
end LocaleKeys
