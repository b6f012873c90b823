import BitcoinCrawl.Crawl.Lifecycle
import BitcoinCrawl.Proofs.Crawl.Advertising
import BitcoinCrawl.Proofs.Crawl.CleanShutdown
import BitcoinCrawl.Proofs.Crawl.Commuting
import BitcoinCrawl.Proofs.Crawl.Completion
import BitcoinCrawl.Proofs.Crawl.Dispatch
import BitcoinCrawl.Proofs.Crawl.Gathering
import BitcoinCrawl.Proofs.Crawl.Provenance
import BitcoinCrawl.Proofs.Crawl.SavesInOrder
import BitcoinCrawl.Proofs.Crawl.Stopping
import BitcoinCrawl.Proofs.Crawl.Wakeups
import BitcoinCrawl.Proofs.Crawl.WholeVisit
import BitcoinCrawl.Proofs.Net.Endpoint
import BitcoinCrawl.Proofs.Net.SocketAddress
import BitcoinCrawl.Proofs.NodeFile.AllOrNothing
import BitcoinCrawl.Proofs.NodeFile.SaveLoad
import BitcoinCrawl.Proofs.Peering.Agreement
import BitcoinCrawl.Proofs.Peering.Concluding
import BitcoinCrawl.Proofs.Registry.Arrivals
import BitcoinCrawl.Proofs.Registry.Keepalive
import BitcoinCrawl.Proofs.Transport.Framing
import BitcoinCrawl.Proofs.Wire.Announcements
