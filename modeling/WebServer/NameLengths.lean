import WebServer.ClientRequest
import WebServer.RequestUris
import WebServer.StaleBuffers

namespace WebServer.NameLengths

open Message Segel RequestHandle Answers HeaderReading RequestUris StaleBuffers ClientRequest

variable {line uri method filename : Bytes} {old : Locals} {room : Nat}

def Fits (bs : Bytes) : Prop := bs.length + 1 ≤ MAXLINE

instance (bs : Bytes) : Decidable (Fits bs) := by
  unfold Fits
  infer_instance

/-- The arrays of `requestHandle` hold the strings that they happen to hold. -/
structure Held (old : Locals) : Prop where
  method : Fits old.method
  uri : Fits old.uri
  cgiargs : Fits old.cgiargs

/-- What of the URI goes into the name of the file has at most `room` bytes, with
`home.html` behind a slash. -/
def NameWithin (room : Nat) (uri : Bytes) : Prop :=
  str ".." <:+: uri ∨
    (¬ str "cgi" <:+: uri ∧ uri.length + (if uri.getLast? = some 47 then 9 else 0) ≤ room) ∨
    str "cgi" <:+: uri ∧ (uri.takeWhile fun b => decide (b ≠ 63)).length ≤ room

theorem homeSuffix_length (h : uri ≠ []) (below : UInt8) :
    (homeSuffix uri below).length = if uri.getLast? = some 47 then 9 else 0 := by
  rw [homeSuffix, List.getLast?_eq_some_getLast h, Option.getD_some]
  by_cases hl : uri.getLast h = 47
  · rw [if_pos hl, if_pos (congrArg some hl)]
    decide
  · rw [if_neg hl, if_neg fun hs => hl (Option.some.inj hs)]
    rfl

theorem public_length : (str "./public/").length = 9 := by decide

theorem filename_within (hroom : 9 ≤ room) (old : Locals) :
    (requestParseURI uri old).filename.length ≤ room + 9 ↔ NameWithin room uri := by
  by_cases hup : str ".." <:+: uri
  · have hlen : (str "./public/home.html").length = 18 := by decide
    rw [parse_up hup, hlen]
    exact ⟨fun _ => .inl hup, fun _ => by omega⟩
  have hsplit : NameWithin room uri ↔
      (¬ str "cgi" <:+: uri ∧ uri.length + (if uri.getLast? = some 47 then 9 else 0) ≤ room) ∨
        str "cgi" <:+: uri ∧ (uri.takeWhile fun b => decide (b ≠ 63)).length ≤ room :=
    or_iff_right hup
  by_cases hcgi : str "cgi" <:+: uri
  · have hpath := and_iff_right (b := (uri.takeWhile fun b => decide (b ≠ 63)).length ≤ room) hcgi
    rw [hsplit, or_iff_right fun h => h.1 hcgi, hpath, parse_dynamic hup hcgi, List.length_append,
      public_length]
    omega
  · rw [hsplit, or_iff_left fun h => hcgi h.1, and_iff_right hcgi, parse_static hup hcgi,
      List.length_append, List.length_append, public_length]
    by_cases hne : uri = []
    · subst hne
      have hlen : (homeSuffix [] old.below).length ≤ 9 := by
        rcases homeSuffix_cases [] old.below with hs | hs <;> rw [hs] <;> decide
      simp only [List.length_nil, List.getLast?_nil]
      simp
      omega
    · rw [homeSuffix_length hne]
      omega

theorem filename_fits (uri : Bytes) (old : Locals) :
    Fits (requestParseURI uri old).filename ↔ NameWithin 8182 uri := by
  rw [← filename_within (by decide) old, Fits, MAXLINE]
  omega

theorem filename_length_le (uri : Bytes) (old : Locals) :
    (requestParseURI uri old).filename.length ≤ uri.length + 18 := by
  have hroom : 9 ≤ uri.length + 9 := Nat.le_add_left _ _
  rw [filename_within hroom]
  by_cases hup : str ".." <:+: uri
  · exact .inl hup
  by_cases hcgi : str "cgi" <:+: uri
  · refine .inr (.inr ⟨hcgi, ?_⟩)
    have hlen := (List.takeWhile_prefix (l := uri) fun b => decide (b ≠ 63)).length_le
    omega
  · refine .inr (.inl ⟨hcgi, ?_⟩)
    split <;> omega

theorem cgiargs_fit (hu : Fits uri) (hc : Fits old.cgiargs) :
    Fits (requestParseURI uri old).cgiargs := by
  by_cases hup : str ".." <:+: uri
  · rwa [parse_up hup]
  by_cases hcgi : str "cgi" <:+: uri
  · have hlen := (List.tail_suffix (uri.dropWhile fun b => decide (b ≠ 63))).length_le
    have hdrop := (List.dropWhile_suffix (l := uri) fun b => decide (b ≠ 63)).length_le
    rw [parse_dynamic hup hcgi]
    rw [Fits] at hu ⊢
    dsimp only
    omega
  · rw [parse_static hup hcgi]
    exact Nat.succ_le_succ (Nat.zero_le _)

theorem Delivered.length_lt (hd : Delivered line) : Fits line := by
  obtain ⟨raw, rfl, -, -, hcut⟩ := hd.bytes
  have hlen := cutLine_length (MAXLINE - 1) raw
  rw [hcut] at hlen
  have hcstr : (cstr raw).length ≤ raw.length := (List.takeWhile_prefix _).length_le
  rw [Fits, MAXLINE]
  rw [MAXLINE] at hlen
  dsimp only at hlen
  omega

theorem sscanf_fits (hl : Fits line) (held : Held old) :
    Fits (sscanf line old).method ∧ Fits (sscanf line old).uri ∧ (sscanf line old).cgiargs = old.cgiargs := by
  have hpart {bs : Bytes} (h : bs <:+: line) : Fits bs := Nat.le_trans (Nat.succ_le_succ h.length_le) hl
  rw [sscanf]
  split
  · exact ⟨held.method, held.uri, rfl⟩
  · next method rest hm =>
    obtain ⟨-, hmethod, hrest⟩ := scanString_token hm
    split
    · exact ⟨hpart hmethod, held.uri, rfl⟩
    · next uri rest' hu =>
      obtain ⟨-, huri, -⟩ := scanString_token hu
      split <;> exact ⟨hpart hmethod, hpart (huri.trans hrest.isInfix), rfl⟩

def getLine (method uri : Bytes) : Bytes := method ++ str " " ++ uri ++ str " HTTP/1.1\n"

theorem getLine_length (method uri : Bytes) :
    (getLine method uri).length = method.length + uri.length + 11 := by
  have h₁ : (str " ").length = 1 := by decide
  have h₂ : (str " HTTP/1.1\n").length = 10 := by decide
  simp only [getLine, List.length_append, h₁, h₂]
  omega

theorem getLine_delivered (hm : Word method) (hu : Word uri) (hlen : Fits (getLine method uri)) :
    Delivered (getLine method uri) := by
  have hend : str " HTTP/1.1\n" = str " HTTP/1.1" ++ [10] := by decide
  have hline : getLine method uri = (method ++ str " " ++ uri ++ str " HTTP/1.1") ++ [10] := by
    simp only [getLine, hend, List.append_assoc]
  have hno : 10 ∉ method ++ str " " ++ uri ++ str " HTTP/1.1" := by
    simp only [List.mem_append, not_or]
    exact ⟨⟨⟨hm.no_lf, by decide⟩, hu.no_lf⟩, by decide⟩
  have hnul : 0 ∉ getLine method uri := by
    simp only [getLine, List.mem_append, not_or]
    exact ⟨⟨⟨hm.no_nul, by decide⟩, hu.no_nul⟩, by decide⟩
  have hcut : cutLine (MAXLINE - 1) (getLine method uri) = (getLine method uri, []) := by
    rw [Fits, hline, List.length_append, List.length_singleton] at hlen
    rw [hline]
    exact cutLine_line hno (by omega) []
  rw [← cstr_eq hnul]
  apply delivered_of_cut _ _ hcut
  · simp [getLine, str]
  · rw [Fits, MAXLINE] at hlen
    omega

/-- The name and the query string fit if and only if the part of the URI that the name
is made of leaves room for what is put around it. -/
theorem names_fit_iff (hd : Delivered line) (held : Held old) :
    (Fits (requestParseURI (sscanf line old).uri (sscanf line old)).filename ∧
      Fits (requestParseURI (sscanf line old).uri (sscanf line old)).cgiargs) ↔
      NameWithin 8182 (sscanf line old).uri := by
  obtain ⟨-, huri, hcgi⟩ := sscanf_fits (Delivered.length_lt hd) held
  rw [and_iff_left (cgiargs_fit huri (by rw [hcgi]; exact held.cgiargs)), filename_fits]

theorem unset_held : Held unset := ⟨by decide, by decide, by decide⟩

theorem names_fit_iff_root :
    Fits (requestParseURI (sscanf (getLine (str "GET") (str "/")) unset).uri
      (sscanf (getLine (str "GET") (str "/")) unset)).filename := by
  have hd : Delivered (getLine (str "GET") (str "/")) :=
    getLine_delivered (by decide +kernel) (by decide +kernel) (by decide +kernel)
  refine ((names_fit_iff hd unset_held).2 ?_).1
  have huri : (sscanf (getLine (str "GET") (str "/")) unset).uri = str "/" := by decide +kernel
  rw [huri]
  exact .inr (.inl ⟨by decide, by decide⟩)

def directory (n : Nat) : Bytes := 47 :: (List.replicate n 97 ++ [47])

theorem mem_directory {n : Nat} {b : UInt8} (h : b ∈ directory n) : b = 47 ∨ b = 97 := by
  simp only [directory, List.mem_cons, List.mem_append, List.mem_replicate, List.not_mem_nil,
    or_false] at h
  tauto

theorem directory_word (n : Nat) : Word (directory n) := by
  refine ⟨by simp [directory], fun b hb => ?_⟩
  rcases mem_directory hb with rfl | rfl <;> decide

theorem directory_length (n : Nat) : (directory n).length = n + 2 := by
  simp [directory]

theorem directory_plain (n : Nat) {bs : Bytes} (h : bs <:+: directory n) :
    bs ≠ str ".." ∧ bs ≠ str "cgi" := by
  constructor <;> rintro rfl
  · rcases mem_directory (h.subset (by decide : 46 ∈ str "..")) with h | h <;> cases h
  · rcases mem_directory (h.subset (by decide : 99 ∈ str "cgi")) with h | h <;> cases h

theorem directory_within (n : Nat) : NameWithin room (directory n) ↔ n + 11 ≤ room := by
  have hup : ¬ str ".." <:+: directory n := fun h => (directory_plain n h).1 rfl
  have hcgi : ¬ str "cgi" <:+: directory n := fun h => (directory_plain n h).2 rfl
  have hlast : (directory n).getLast? = some 47 := by
    rw [directory, ← List.cons_append, List.getLast?_concat]
  rw [NameWithin, or_iff_right hup, or_iff_left fun h => hcgi h.1, and_iff_right hcgi, if_pos hlast,
    directory_length]

theorem getLine_directory {n : Nat} (hn : n ≤ 8175) : Delivered (getLine (str "GET") (directory n)) := by
  apply getLine_delivered (by decide +kernel) (directory_word n)
  have hget : (str "GET").length = 3 := by decide
  rw [Fits, getLine_length, directory_length, hget, MAXLINE]
  omega

theorem sscanf_directory (n : Nat) (old : Locals) : sscanf (getLine (str "GET") (directory n)) old =
    { old with method := str "GET", uri := directory n, version := str "HTTP/1.1" } :=
  sscanf_request (by decide +kernel) (directory_word n) old

theorem get_directory (n : Nat) : isGet (sscanf (getLine (str "GET") (directory n)) unset) = true := by
  rw [sscanf_directory, isGet]
  exact (by decide : strcasecmp (str "GET") (str "GET") = true)

theorem names_overflow : Delivered (getLine (str "GET") (directory 8175)) ∧
    isGet (sscanf (getLine (str "GET") (directory 8175)) unset) = true ∧
    ¬ Fits (requestParseURI (sscanf (getLine (str "GET") (directory 8175)) unset).uri
      (sscanf (getLine (str "GET") (directory 8175)) unset)).filename := by
  refine ⟨getLine_directory (by decide), get_directory 8175, ?_⟩
  rw [filename_fits, sscanf_directory, directory_within]
  decide

end WebServer.NameLengths
