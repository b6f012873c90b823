import BitcoinCrawl.Crawl.State

set_option autoImplicit false

/-! # The aggregator

Only the aggregator records outcomes. It goes on until every worker has gone away, so an outcome that is
reported while the crawl stops is still recorded. -/

namespace BitcoinCrawl.Crawl

/-- One step of the aggregator. -/
def stepAggregator (c : Crawl) : Crawl × Motion :=
  match c.aggregator with
  | .starting =>
    ({ c.report (.debug "Result aggregator started") with aggregator := .recording }, .moved)
  | .recording =>
    match c.outcomes.items with
    | outcome :: items =>
      ({ c with shared := c.shared.settle outcome, outcomes := { c.outcomes with items } }, .moved)
    | [] =>
      if c.workersGone then
        ({ c.report (.debug "Result aggregator exited") with
            aggregator := .exited, settled := .announced }, .moved)
      else (c, .blocked none)
  | .exited => (c, .blocked none)

end BitcoinCrawl.Crawl
