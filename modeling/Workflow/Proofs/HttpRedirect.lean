/-
Module: Workflow.Proofs.HttpRedirect
Layer: Proofs
Purpose: Where a relative redirect leads. The text that is parsed again is put together from components
  that lost their brackets and their escapes: a host with a colon ends at the colon, and a host that
  begins with a slash is no host; every other one comes back.
Trusted boundary: none
Main exports: LocationText, SameOrigin, redirectText_render, port_free, redirectUrl_iff
-/
import Workflow.Factory.HttpRedirect
import Workflow.Proofs.URIAccepted

namespace Workflow.Factory

open Workflow.Lib
open Workflow.Util
open Workflow.Http
open Workflow.Uri

/-! ### Locations -/

/-- A value of `Location` that is relative to the origin: a path that begins with one slash, and
perhaps a query and a fragment. -/
structure LocationText where
  path : List Byte
  query : Option (List Byte)
  fragment : Option (List Byte)
  path_wf : path.head? = some 47 ∧ path[1]? ≠ some 47 ∧ ∀ c ∈ path, validChar 4 c
  query_wf : ∀ q ∈ query, ∀ c ∈ q, validChar 5 c
  fragment_wf : ∀ f ∈ fragment, ∀ c ∈ f, validChar 6 c

def LocationText.render (l : LocationText) : List Byte :=
  l.path ++ l.query.elim [] (63 :: ·) ++ l.fragment.elim [] (35 :: ·)

/-- The URI is where `l` leads from `uri`. -/
structure SameOrigin (l : LocationText) (uri uri' : ParsedURI) : Prop where
  state : uri'.state = .success
  scheme : uri'.scheme = uri.scheme
  host : uri'.host = uri.host
  port : uri'.port = uri.port
  path : uri'.path = some l.path
  query : uri'.query = l.query.bind kept
  fragment : uri'.fragment = l.fragment.bind kept

namespace LocationText

variable (l : LocationText)

theorem render_cons : ∃ rest, l.render = 47 :: rest ∧ charAt (47 :: rest) 1 ≠ 47 := by
  obtain ⟨hhead, hsecond, -⟩ := l.path_wf
  rw [render]
  cases hp : l.path with
  | nil => simp [hp] at hhead
  | cons c path =>
      rw [hp] at hhead hsecond
      cases hhead
      refine ⟨_, rfl, ?_⟩
      cases path with
      | cons d path => simpa [charAt] using hsecond
      | nil => cases l.query <;> cases l.fragment <;> simp [charAt]

/-- The location behind a host and a port that the scan can take apart. -/
def behind (scheme host port : List Byte) (hscheme : SchemeWf scheme)
    (hhost : 58 ∉ host ∧ ∀ c ∈ host, validChar 2 c)
    (hport : ∀ c ∈ port, sepIndex 1 c = none ∧ c ≠ 64 ∧ c ≠ 0) : SplitText where
  scheme := scheme
  userinfo := none
  host := .regName host
  port := some port
  path := some l.path
  query := l.query
  fragment := l.fragment
  scheme_wf := hscheme
  userinfo_wf := nofun
  host_wf := hhost.2
  regName_wf := fun n hn => HostText.regName.inj hn ▸ hhost.1
  port_wf := fun p hp => Option.mem_some.mp hp ▸ hport
  path_wf := fun p hp => by
    obtain rfl := Option.mem_some.mp hp
    obtain ⟨hhead, -, hvalid⟩ := l.path_wf
    have hall : ∀ i < 4, 2 ≤ i → validChar 4 (sep.getD i 0) = false := by decide
    exact ⟨hhead, fun c hc =>
      ⟨sepIndex_eq_none fun i hi hidx => validChar_ne (hvalid c hc) (hall i hi hidx),
        validChar_ne (hvalid c hc) (by decide)⟩⟩
  query_wf := fun q hq c hc => by
    have hvalid := l.query_wf q hq c hc
    have hall : ∀ i < 4, 3 ≤ i → validChar 5 (sep.getD i 0) = false := by decide
    exact ⟨sepIndex_eq_none fun i hi hidx => validChar_ne hvalid (hall i hi hidx),
      validChar_ne hvalid (by decide)⟩
  fragment_wf := fun f hf hnul => validChar_ne (l.fragment_wf f hf 0 hnul) (by decide) rfl

theorem behind_render {scheme host port : List Byte} (hscheme : SchemeWf scheme)
    (hhost : 58 ∉ host ∧ ∀ c ∈ host, validChar 2 c)
    (hport : ∀ c ∈ port, sepIndex 1 c = none ∧ c ≠ 64 ∧ c ≠ 0) :
    (l.behind scheme host port hscheme hhost hport).render =
      scheme ++ (ascii "://" ++ (host ++ 58 :: (port ++ l.render))) := by
  simp only [SplitText.render, behind, HostText.bytes, render, Option.elim_none, Option.elim_some,
    Option.getD_some, List.append_assoc, List.nil_append, List.cons_append]

end LocationText

/-- The text that is parsed for a relative location. -/
theorem redirectText_render {uri : ParsedURI} {scheme port : List Byte} (l : LocationText)
    (hscheme : uri.scheme = some scheme) (hport : uri.port = some port) :
    redirectText uri l.render = uri.host.map fun host =>
      scheme ++ (ascii "://" ++ (host ++ 58 :: (port ++ l.render))) := by
  obtain ⟨rest, hrender, hsecond⟩ := l.render_cons
  have hslash : (charAt (47 :: rest) 1 != 47) = true := bne_iff_ne.mpr hsecond
  have hfirst : (charAt (47 :: rest) 0 == 47) = true := rfl
  rw [redirectText, hrender, if_pos hfirst, if_pos hslash, hscheme, hport]
  cases uri.host with
  | none => rfl
  | some host => rfl

/-! ### The port -/

theorem isDigit_port {c : Byte} (h : isDigit c = true) : validChar 3 c = true := by
  simp only [isDigit, Bool.and_eq_true, decide_eq_true_eq] at h
  have hall : ∀ n < 58, 48 ≤ n → (portTable.getD n 0 != 0) = true := by decide
  exact hall c.toNat (by omega) h.1

/-- Every default port is a valid port. -/
theorem getDefaultPort_valid {user : List Byte → Option UInt16} {scheme port : List Byte}
    (h : getDefaultPort user scheme = some port) : port ≠ [] ∧ ∀ c ∈ port, validChar 3 c := by
  unfold getDefaultPort at h
  split at h
  · rename_i port' hlookup
    cases h
    have hall : ∀ p ∈ staticSchemePort, p.2 ≠ [] ∧ ∀ c ∈ p.2, validChar 3 c := by decide +kernel
    obtain ⟨before, after, hsplit, -⟩ := List.lookup_eq_some_iff.mp hlookup
    exact hall (scheme, port) (by rw [hsplit]; simp)
  · obtain ⟨n, -, rfl⟩ := Option.map_eq_some_iff.mp h
    have hdecimal : toDecimal (n.toNat : Int) = decimal n.toNat := by
      rw [toDecimal, if_neg (by omega), Int.natAbs_natCast]
    rw [hdecimal]
    exact ⟨decimal_ne_nil _, fun c hc => isDigit_port (decimal_isDigit _ c hc)⟩

/-- `set_port` keeps what was accepted, and leaves a port. -/
theorem setPort_accepted {user : List Byte → Option UInt16} {t t' : HttpTask} {uri uri' : ParsedURI}
    (huri : Accepted uri) (h : setPort user t uri = (true, t', uri')) :
    Accepted uri' ∧ ∃ port, uri'.port = some port := by
  unfold setPort at h
  split at h
  · rename_i text hport
    dsimp only at h
    split at h
    · cases h
    · cases h
      exact ⟨huri, text, hport⟩
  · split at h
    · rename_i port hdefault
      cases h
      obtain ⟨scheme, -, hdefault⟩ := Option.bind_eq_some_iff.mp hdefault
      exact ⟨⟨huri.scheme, huri.host,
        fun p hp => Option.mem_some.mp hp ▸ getDefaultPort_valid hdefault⟩, port, rfl⟩
    · cases h

/-! ### Where a redirect leads -/

variable {uri : ParsedURI} {scheme host port : List Byte}

theorem port_free (hport : ∀ c ∈ port, validChar 3 c) :
    ∀ c ∈ port, sepIndex 1 c = none ∧ c ≠ 64 ∧ c ≠ 0 := by
  have hall : ∀ i < 4, validChar 3 (sep.getD i 0) = false := by decide
  exact fun c hc => ⟨sepIndex_eq_none fun i hi _ => validChar_ne (hport c hc) (hall i hi),
    validChar_ne (hport c hc) (by decide), validChar_ne (hport c hc) (by decide)⟩

/-- A host without a colon that is not a path comes back. -/
theorem parse_behind_plain (l : LocationText) (uri : ParsedURI) (hscheme : SchemeWf scheme)
    (hhost : escapedSlash host = false ∧ host ≠ [] ∧ ∀ c ∈ host, validChar 2 c)
    (hport : port ≠ [] ∧ ∀ c ∈ port, validChar 3 c) (hcolon : 58 ∉ host) :
    parse (scheme ++ (ascii "://" ++ (host ++ 58 :: (port ++ l.render)))) uri =
      (0, ⟨some scheme, none, some host, some port, some l.path, l.query.bind kept,
        l.fragment.bind kept, .success, uri.error⟩) := by
  have hparse := parse_split
    (l.behind scheme host port hscheme ⟨hcolon, hhost.2.2⟩ (port_free hport.2)) uri
  have hvalid : (port.all (validChar 3) && l.path.all (validChar 4)) = true := by
    rw [Bool.and_eq_true, List.all_eq_true, List.all_eq_true]
    exact ⟨hport.2, l.path_wf.2.2⟩
  rw [LocationText.behind_render] at hparse
  rw [hparse]
  simp only [LocationText.behind, Option.getD_some, hvalid, ↓reduceIte, HostText.name,
    kept_of_ne hhost.2.1, kept_of_ne hport.1, Option.map_some, hhost.1, Option.bind_some,
    Bool.false_eq_true]

/-- A host with a colon ends there: what is behind it is no port. -/
theorem parse_behind_colon (l : LocationText) (uri : ParsedURI) (hscheme : SchemeWf scheme)
    (hhost : ∀ c ∈ host, validChar 2 c) (hport : ∀ c ∈ port, validChar 3 c) (hcolon : 58 ∈ host) :
    (parse (scheme ++ (ascii "://" ++ (host ++ 58 :: (port ++ l.render)))) uri).2.state =
      .invalid := by
  obtain ⟨first, behind, rfl, hfirst⟩ := List.eq_append_cons_of_mem hcolon
  rw [List.forall_mem_append, List.forall_mem_cons] at hhost
  have hfree : ∀ c ∈ behind ++ 58 :: port, sepIndex 1 c = none ∧ c ≠ 64 ∧ c ≠ 0 := by
    have hhosts : ∀ i < 4, 1 ≤ i → validChar 2 (sep.getD i 0) = false := by decide
    rw [List.forall_mem_append, List.forall_mem_cons]
    refine ⟨fun c hc => ?_, by decide, port_free hport⟩
    have hvalid := hhost.2.2 c hc
    exact ⟨sepIndex_eq_none fun i hi hidx => validChar_ne hvalid (hhosts i hi hidx),
      validChar_ne hvalid (by decide), validChar_ne hvalid (by decide)⟩
  have hparse := parse_split (l.behind scheme first (behind ++ 58 :: port) hscheme
    ⟨hfirst, hhost.1⟩ hfree) uri
  have htext : first ++ 58 :: behind ++ 58 :: (port ++ l.render) =
      first ++ 58 :: (behind ++ 58 :: port ++ l.render) := by
    simp only [List.append_assoc, List.cons_append]
  have hinvalid : ((behind ++ 58 :: port).all (validChar 3) && l.path.all (validChar 4)) = false := by
    have h58 : validChar 3 58 = false := by decide
    simp [h58]
  rw [LocationText.behind_render] at hparse
  rw [htext, hparse]
  simp only [LocationText.behind, Option.getD_some, hinvalid, Bool.false_eq_true, ↓reduceIte]

/-- A relative redirect keeps the origin exactly when there is a host, without a colon and not a
path. -/
theorem redirectUrl_iff {user : List Byte → Option UInt16} {text : List Byte}
    {start uri : ParsedURI} {t₀ t : HttpTask} {lines : List BufferedLine} {next : Nat}
    (l : LocationText) (hparse : (parse text start).1 = 0)
    (hport : setPort user t₀ (parse text start).2 = (true, t, uri))
    (hcount : t.redirectCount < t.redirectMax)
    (hlocation : cursorFind (ascii "Location") lines 0 = some (next, some l.render)) :
    (∃ t' uri', redirectUrl t lines uri = some (true, t', uri') ∧ SameOrigin l uri uri') ↔
      ∃ host, uri.host = some host ∧ 58 ∉ host ∧ host.head? ≠ some 47 := by
  obtain ⟨⟨⟨scheme, hscheme, hwf⟩, hhosts, hports⟩, port, hport⟩ :=
    setPort_accepted (parse_accepted hparse) hport
  have hvalid := hports port hport
  obtain ⟨rest, hrender, -⟩ := l.render_cons
  have hne : l.render ≠ [] := by rw [hrender]; exact List.cons_ne_nil _ _
  have hredirect : redirectUrl t lines uri = uri.host.map fun host =>
      (true, { t with redirectCount := t.redirectCount + 1 },
        (parse (scheme ++ (ascii "://" ++ (host ++ 58 :: (port ++ l.render)))) uri).2) := by
    rw [redirectUrl, if_pos hcount, hlocation]
    simp only [Option.bind_eq_bind, Option.bind_some, Option.getD_some, if_neg hne,
      redirectText_render l hscheme hport, Option.bind_map]
    cases uri.host <;> rfl
  rw [hredirect]
  cases hhost : uri.host with
  | none => simp
  | some host =>
      have hcases := hhosts host hhost
      constructor
      · rintro ⟨t', uri', hres, hsame⟩
        cases hres
        have hhead : host.head? ≠ some 47 := by
          intro hhead
          obtain ⟨rest, rfl⟩ := List.head?_eq_some_iff.mp hhead
          have hnone := parse_slash_host uri hwf hsame.state
          rw [List.cons_append] at hsame
          cases hnone.symm.trans (hsame.host.trans hhost)
        refine ⟨host, rfl, fun hcolon => ?_, hhead⟩
        have hchars := (hcases.resolve_left hhead).2.2
        have hstate := hsame.state
        rw [parse_behind_colon l uri hwf hchars hvalid.2 hcolon] at hstate
        cases hstate
      · rintro ⟨host', hhost', hcolon, hhead⟩
        cases hhost'
        have hplain := hcases.resolve_left hhead
        refine ⟨_, _, rfl, ?_⟩
        rw [parse_behind_plain l uri hwf hplain hvalid hcolon]
        exact ⟨rfl, hscheme.symm, hhost.symm, hport.symm, rfl, rfl, rfl⟩

/-! ### Two redirects -/

/-- `/b?c`. -/
def sampleLocation : LocationText where
  path := ascii "/b"
  query := some (ascii "c")
  fragment := none
  path_wf := by decide +kernel
  query_wf := by decide +kernel
  fragment_wf := nofun

def sampleLines : List BufferedLine :=
  [⟨8, 4, ascii "Location: /b?c" ++ [CR, LF]⟩]

def sampleTask : HttpTask :=
  ⟨5, 0, .success, 0⟩

def emptyUri : ParsedURI :=
  ⟨none, none, none, none, none, none, none, .init, 0⟩

theorem redirectUrl_name :
    ∃ t' uri', redirectUrl sampleTask sampleLines
        (setPort (fun _ => none) sampleTask (parse (ascii "http://a/x") emptyUri).2).2.2 =
          some (true, t', uri') ∧
      SameOrigin sampleLocation
        (setPort (fun _ => none) sampleTask (parse (ascii "http://a/x") emptyUri).2).2.2 uri' :=
  (redirectUrl_iff sampleLocation (by decide +kernel)
    (by decide +kernel : setPort (fun _ => none) sampleTask
      (parse (ascii "http://a/x") emptyUri).2 = (true, sampleTask, _)) (by decide)
    (by decide +kernel : _ = some (1, some _))).mpr ⟨ascii "a", by decide +kernel⟩

/-- `http://[::1]/` with the location `/b?c`: the text that is parsed is `http://::1:80/b?c`. -/
theorem redirectUrl_literal :
    ¬∀ (user : List Byte → Option UInt16) (text : List Byte) (start uri : ParsedURI)
      (t₀ t : HttpTask) (lines : List BufferedLine) (next : Nat) (l : LocationText),
      (parse text start).1 = 0 → setPort user t₀ (parse text start).2 = (true, t, uri) →
      t.redirectCount < t.redirectMax →
      cursorFind (ascii "Location") lines 0 = some (next, some l.render) →
      ∃ t' uri', redirectUrl t lines uri = some (true, t', uri') ∧ SameOrigin l uri uri' := by
  intro hall
  have hport : setPort (fun _ => none) sampleTask (parse (ascii "http://[::1]/") emptyUri).2 =
      (true, sampleTask, ⟨some (ascii "http"), none, some (ascii "::1"), some (ascii "80"),
        some (ascii "/"), none, none, .success, 0⟩) := by decide +kernel
  obtain ⟨t', uri', hres, hsame⟩ := hall _ (ascii "http://[::1]/") emptyUri _ sampleTask sampleTask
    sampleLines 1 sampleLocation (by decide +kernel) hport (by decide) (by decide +kernel)
  have hstate : ∀ r, redirectUrl sampleTask sampleLines ⟨some (ascii "http"), none,
      some (ascii "::1"), some (ascii "80"), some (ascii "/"), none, none, .success, 0⟩ = some r →
        r.2.2.state = .invalid := by decide +kernel
  cases (hstate _ hres).symm.trans hsame.state

end Workflow.Factory
