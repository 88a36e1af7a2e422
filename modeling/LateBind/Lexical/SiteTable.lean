import LateBind.Syntax.Basic

/-! What a pass has found out about call sites. -/
namespace LateBind

/-- Findings about call sites in the order they were made. Of two about one site the later
counts. -/
structure SiteTable (α : Type) where
  findings : List (CallSiteId × α) := []

namespace SiteTable

variable {α : Type}

def get? (t : SiteTable α) (s : CallSiteId) : Option α :=
  (t.findings.reverse.find? (·.1 == s)).map (·.2)

/-- The sites with a finding, each once, in order. -/
def sites (t : SiteTable α) : List CallSiteId :=
  (t.findings.map (·.1)).eraseDups.mergeSort fun a b => a.index ≤ b.index

/-- Each site with the finding that counts. -/
def entries (t : SiteTable α) : List (CallSiteId × α) :=
  t.sites.filterMap fun s => (t.get? s).map (s, ·)

def size (t : SiteTable α) : Nat := t.sites.length

def isEmpty (t : SiteTable α) : Bool := t.findings.isEmpty

end SiteTable

end LateBind
