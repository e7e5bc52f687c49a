import Mathlib.Data.List.DropRight
import WebosWireguard.TextLines

/-! Slash-separated paths by their lexical rules: cleaning, joining below a rooted element,
and the last element. Links and the file system's own limits play no part. -/
namespace WebosWireguard.FilePath
open TextLines

def cleanStep (done : List Text) (c : Text) : List Text :=
  if c = [] ∨ c = ['.'] then done
  else if c = ['.','.'] then done.dropLast
  else done ++ [c]

def clean (components : List Text) : List Text := components.foldl cleanStep []

def render : List Text → Text
  | [] => ['/']
  | c::rest => (c::rest).flatMap (fun x => '/'::x)

def join (elements : List Text) : Text := render (clean (elements.flatMap (List.splitOn '/')))

def lastElement (path : Text) : Text :=
  if path = [] then ['.']
  else
    let last := (path.rdropWhile (fun c => c == '/')).rtakeWhile (fun c => c != '/')
    if last = [] then ['/'] else last

theorem lastElementPlain (path : Text) : '/' ∉ lastElement path ∨ lastElement path = ['/'] := by
  unfold lastElement
  split
  · exact .inl (by decide)
  · dsimp only
    split
    · exact .inr rfl
    · refine .inl (fun mem => ?_)
      have h := List.mem_rtakeWhile_imp mem
      simp at h

theorem lastElementChild {directory name : Text} (filled : name ≠ []) (whole : '/' ∉ name) :
    lastElement (directory ++ '/'::name) = name := by
  have solid : ∀ c ∈ name, (c != '/') = true := by
    intro c mem
    have other : c ≠ '/' := fun same => whole (same ▸ mem)
    simpa using other
  have ends : (directory ++ '/'::name).rdropWhile (fun c => c == '/') = directory ++ '/'::name := by
    rw [List.rdropWhile_eq_self_iff]
    intro _ slash
    rw [List.getLast_append_of_ne_nil _ (by simp),List.getLast_cons filled] at slash
    exact whole (by simpa using (beq_iff_eq.mp slash) ▸ List.getLast_mem filled)
  have last : (directory ++ '/'::name).rtakeWhile (fun c => c != '/') = name := by
    have reversed : (directory ++ '/'::name).reverse = name.reverse ++ '/'::directory.reverse := by simp
    rw [List.rtakeWhile,reversed,List.takeWhile_append_of_pos (by simpa using solid)]
    simp
  simp [lastElement,ends,last,filled]

/- Below the directory itself, with a name that does not lead elsewhere. -/
def DirectChild (directory path : Text) : Prop :=
  ∃ name, path = directory ++ '/'::name ∧ name ≠ [] ∧ name ≠ ['.'] ∧ name ≠ ['.','.'] ∧ '/' ∉ name

theorem cleanLast {pre : List Text} {c : Text} (filled : c ≠ []) (plain : c ≠ ['.'] ∧ c ≠ ['.','.'])
    {post : List Text} (empty : ∀ x ∈ post, x = []) : clean (pre ++ c::post) = clean pre ++ [c] := by
  have tail : ∀ done, post.foldl cleanStep done = done := by
    intro done
    induction post with
    | nil => rfl
    | cons x rest ih =>
      obtain rfl := empty x (by simp)
      exact ih (fun y mem => empty y (List.mem_cons_of_mem _ mem))
  unfold clean
  rw [List.foldl_append,List.foldl_cons,tail]
  simp [cleanStep,filled,plain]

theorem renderConcat {pre : List Text} (filled : pre ≠ []) (c : Text) :
    render (pre ++ [c]) = render pre ++ '/'::c := by
  cases pre with
  | nil => contradiction
  | cons x rest => simp [render]

theorem splitStem {stem : Text} (plain : '/' ∉ stem) (name : Text) :
    ∃ last post, stem <+: last ∧ '/' ∉ last ∧ (∀ x ∈ post, x = []) ∧
      (stem ++ lastElement name).splitOn '/' = last::post := by
  rcases lastElementPlain name with inside | slash
  · have whole : '/' ∉ stem ++ lastElement name := by simp [plain,inside]
    exact ⟨stem ++ lastElement name,[],List.prefix_append _ _,whole,by simp,List.splitOn_eq_singleton whole⟩
  · refine ⟨stem,[[]],List.prefix_rfl,plain,by simp,?_⟩
    rw [slash,List.splitOn_append_cons_self_of_not_mem plain,List.splitOn_nil]

end WebosWireguard.FilePath
